import KeyVault.Registry

/-! What the registry calls return, in terms of what their critical sections did:
a call that succeeds has changed the map exactly once and as its name says, a call
that fails has not changed it, and of competing registers exactly one succeeds. -/
namespace KeyVault

open Interleaving

/-! ### What calls return -/

@[simp] theorem filterMap_commit?_audited (env : Environment) (keyName : String)
    (kind : AccessKind) (note : String) :
    (audited env keyName kind note).filterMap VaultEvent.commit? = [] := by
  unfold audited
  split <;> rfl

@[simp] theorem filterMap_commit?_keyLocked {name : String} {check : List VaultEvent}
    {locked : Bool} (h : KeyLockedPath name check locked) :
    check.filterMap VaultEvent.commit? = [] := by
  cases h <;> rfl

theorem RegisterPath.commits {env : Environment} {name : String} {key : Bytes} {rng : Rng}
    {os : OsAnswers} {history : List VaultEvent} {result : Result KeyId}
    (h : RegisterPath env name key rng os history result) :
    (∃ exit, result = .error exit ∧ history.filterMap VaultEvent.commit? = []) ∨
      ∃ id entry, result = .ok id ∧ entry.name = name ∧
        history.filterMap VaultEvent.commit? = [.inserted id entry] := by
  cases h with
  | lockedOut => exact .inl ⟨_, rfl, rfl⟩
  | duplicate snapshot hname => exact .inl ⟨_, rfl, rfl⟩
  | failed snapshot exit hfragment => exact .inl ⟨_, rfl, rfl⟩
  | refused snapshot id time entry hentry => exact .inl ⟨_, rfl, rfl⟩
  | installed snapshot id time fragments hfragment =>
    refine .inr ⟨id, ⟨name, fragments, ⟨time, key.length, none⟩⟩, rfl, rfl, ?_⟩
    rw [List.filterMap_append, filterMap_commit?_audited]
    rfl

theorem UnregisterPath.commits {env : Environment} {handle : KeyId} {history : List VaultEvent}
    {result : Result Unit} (h : UnregisterPath env handle history result) :
    (∃ exit, result = .error exit ∧ history.filterMap VaultEvent.commit? = []) ∨
      ∃ name, result = .ok () ∧ history.filterMap VaultEvent.commit? = [.removed handle name] := by
  cases h with
  | absent => exact .inl ⟨_, rfl, rfl⟩
  | removed name =>
    refine .inr ⟨name, rfl, ?_⟩
    rw [List.filterMap_append, filterMap_commit?_audited]
    rfl

theorem RotatePath.commits {env : Environment} {handle : KeyId} {key : Bytes} {rng : Rng}
    {os : OsAnswers} {history : List VaultEvent} {result : Result Unit}
    (h : RotatePath env handle key rng os history result) :
    (∃ exit, result = .error exit ∧ history.filterMap VaultEvent.commit? = []) ∨
      ∃ name fragments metadata, result = .ok () ∧
        history.filterMap VaultEvent.commit? = [.replaced handle name fragments metadata] := by
  cases h with
  | lockedOut => exact .inl ⟨_, rfl, rfl⟩
  | absent snapshot hlookup => exact .inl ⟨_, rfl, rfl⟩
  | keyLocked snapshot entry check hlookup hcheck =>
    refine .inl ⟨_, rfl, ?_⟩
    rw [List.filterMap_append, filterMap_commit?_keyLocked hcheck]
    rfl
  | failed snapshot entry check exit hfragment hcheck =>
    refine .inl ⟨_, rfl, ?_⟩
    rw [List.filterMap_append, filterMap_commit?_keyLocked hcheck]
    rfl
  | gone snapshot entry check time fragments metadata hcheck =>
    refine .inl ⟨_, rfl, ?_⟩
    rw [List.filterMap_append, List.filterMap_append, filterMap_commit?_keyLocked hcheck]
    rfl
  | replaced snapshot entry check time fragments name hcheck hfragment =>
    refine .inr ⟨name, fragments, ⟨time, key.length, none⟩, rfl, ?_⟩
    rw [List.filterMap_append, List.filterMap_append, List.filterMap_append,
      filterMap_commit?_audited, filterMap_commit?_keyLocked hcheck]
    rfl

def Response.Failed : Response → Prop
  | .handle (.error _) | .status (.error _) | .material (.error _) | .fragments (.error _) => True
  | _ => False

theorem commitsBy_of_mayUse {env : Environment} {c : VaultConfiguration} {caller : Nat}
    {request : Request} {rest : VaultProgram Response} (h : OrderlyCalls env c)
    (hcall : c.calls[caller]? = some ⟨request, rest⟩)
    (hquiet : ∀ op, request.MayUse op → op.writes .keys = false) :
    commitsBy c.log caller = [] := by
  unfold commitsBy
  rw [List.filterMap_eq_nil_iff]
  intro event hevent
  obtain ⟨entry, hentry, rfl, rfl⟩ := mem_eventsBy.mp hevent
  obtain ⟨before, after, hsplit⟩ := List.append_of_mem hentry
  obtain ⟨hmay, -⟩ := h.permitted before entry after hsplit
  obtain ⟨other, hother⟩ := h.logged entry hentry
  rw [hcall] at hother
  cases hother
  exact commit?_of_writes (hquiet _ hmay) entry.event.ret

def Request.writesKeys : Request → Bool
  | .register _ _ _ _ | .unregister _ | .rotate _ _ _ _ => true
  | _ => false

theorem mayUse_writes_keys {request : Request} {op : VaultOp} (h : request.MayUse op)
    (hrequest : request.writesKeys = false) : op.writes .keys = false := by
  cases request <;> cases op <;> first | rfl | exact h.elim | cases hrequest

/-- What holds of the registry and of the answers of all calls so far. -/
structure RegistryGuarantees (c : VaultConfiguration) : Prop where
  /-- The log is a run of the sequential map and leads to the current map. -/
  sequential : Registry.Replays (fun _ => none) (logEvents c.log) (registryOf c.shared.keys)
  uniqueNames : (registryOf c.shared.keys).UniqueNames
  /-- An unregistered handle resolves to nothing. -/
  unregistered : ∀ caller id name, (caller, .removed id name) ∈ commits c.log →
    registryOf c.shared.keys id = none
  /-- At most one call ever installs under a handle. -/
  oneInstaller : ∀ caller caller' id entry entry', (caller, .inserted id entry) ∈ commits c.log →
    (caller', .inserted id entry') ∈ commits c.log → caller = caller'
  /-- What a handle resolves to was installed under it and keeps its name. -/
  resolved : ∀ id entry, registryOf c.shared.keys id = some entry →
    ∃ caller first, (caller, .inserted id first) ∈ commits c.log ∧ first.name = entry.name
  registered : ∀ caller name key rng os result,
    c.Returned caller (.register name key rng os) (.handle result) →
    ∀ id, result = .ok id ↔ ∃ entry, entry.name = name ∧ commitsBy c.log caller = [.inserted id entry]
  rotated : ∀ caller handle key rng os result,
    c.Returned caller (.rotate handle key rng os) (.status result) →
    (result = .ok () ↔ ∃ name fragments metadata,
      commitsBy c.log caller = [.replaced handle name fragments metadata])
  removed : ∀ caller handle result, c.Returned caller (.unregister handle) (.status result) →
    (result = .ok () ↔ ∃ name, commitsBy c.log caller = [.removed handle name])
  removedOnce : ∀ caller caller' handle, c.Returned caller (.unregister handle) (.status (.ok ())) →
    c.Returned caller' (.unregister handle) (.status (.ok ())) → caller = caller'
  failed : ∀ caller request response, c.Returned caller request response → response.Failed →
    commitsBy c.log caller = []

theorem eq_of_nodup_filterMap {α β : Type} {f : α → Option β} {items : List α}
    (h : (items.filterMap f).Nodup) {left right : α} {image : β} (hleft : left ∈ items)
    (hright : right ∈ items) (hleftImage : f left = some image)
    (hrightImage : f right = some image) : left = right := by
  induction items with
  | nil => cases hleft
  | cons item items ih =>
    have himage : ∀ other ∈ items, f other = some image → image ∈ items.filterMap f := by
      intro other hother hotherImage
      exact List.mem_filterMap.mpr ⟨other, hother, hotherImage⟩
    cases hitem : f item with
    | none =>
      rw [List.filterMap_cons_none hitem] at h
      rcases List.mem_cons.mp hleft with rfl | hleftTail
      · rw [hitem] at hleftImage
        cases hleftImage
      · rcases List.mem_cons.mp hright with rfl | hrightTail
        · rw [hitem] at hrightImage
          cases hrightImage
        · exact ih h hleftTail hrightTail
    | some first =>
      rw [List.filterMap_cons_some hitem, List.nodup_cons] at h
      rcases List.mem_cons.mp hleft with rfl | hleftTail
      · rw [hitem, Option.some.injEq] at hleftImage
        rcases List.mem_cons.mp hright with rfl | hrightTail
        · rfl
        · exact absurd (hleftImage ▸ himage right hrightTail hrightImage) h.1
      · rcases List.mem_cons.mp hright with rfl | hrightTail
        · rw [hitem, Option.some.injEq] at hrightImage
          exact absurd (hrightImage ▸ himage left hleftTail hleftImage) h.1
        · exact ih h.2 hleftTail hrightTail

section ReturnedPaths

variable {env : Environment} {c : VaultConfiguration} {caller : Nat}

theorem OrderlyCalls.registerPath {name : String} {key : Bytes} {rng : Rng} {os : OsAnswers}
    {result : Result KeyId} (h : OrderlyCalls env c)
    (hreturned : c.Returned caller (.register name key rng os) (.handle result)) :
    RegisterPath env name key rng os (eventsBy c.log caller) result := by
  obtain ⟨_, heq, hpath⟩ := h.returned hreturned
  cases heq
  exact hpath

theorem OrderlyCalls.unregisterPath {handle : KeyId} {result : Result Unit}
    (h : OrderlyCalls env c) (hreturned : c.Returned caller (.unregister handle) (.status result)) :
    UnregisterPath env handle (eventsBy c.log caller) result := by
  obtain ⟨_, heq, hpath⟩ := h.returned hreturned
  cases heq
  exact hpath

theorem OrderlyCalls.rotatePath {handle : KeyId} {key : Bytes} {rng : Rng} {os : OsAnswers}
    {result : Result Unit} (h : OrderlyCalls env c)
    (hreturned : c.Returned caller (.rotate handle key rng os) (.status result)) :
    RotatePath env handle key rng os (eventsBy c.log caller) result := by
  obtain ⟨_, heq, hpath⟩ := h.returned hreturned
  cases heq
  exact hpath

theorem OrderlyCalls.commitsBy_of_failed {request : Request} {response : Response}
    (h : OrderlyCalls env c) (hreturned : c.Returned caller request response)
    (hfailed : response.Failed) : commitsBy c.log caller = [] := by
  by_cases hwrites : request.writesKeys = true
  · cases request with
    | register name key rng os =>
      obtain ⟨result, rfl, hpath⟩ := h.returned hreturned
      rcases hpath.commits with ⟨exit, rfl, hnone⟩ | ⟨id, entry, rfl, -, -⟩
      · exact hnone
      · exact hfailed.elim
    | unregister handle =>
      obtain ⟨result, rfl, hpath⟩ := h.returned hreturned
      rcases hpath.commits with ⟨exit, rfl, hnone⟩ | ⟨name, rfl, -⟩
      · exact hnone
      · exact hfailed.elim
    | rotate handle key rng os =>
      obtain ⟨result, rfl, hpath⟩ := h.returned hreturned
      rcases hpath.commits with ⟨exit, rfl, hnone⟩ | ⟨name, fragments, metadata, rfl, -⟩
      · exact hnone
      · exact hfailed.elim
    | _ => cases hwrites
  · exact commitsBy_of_mayUse h hreturned fun op hop =>
      mayUse_writes_keys hop (Bool.not_eq_true _ ▸ hwrites)

end ReturnedPaths

theorem registryGuarantees_of_invariant {env : Environment} {c : VaultConfiguration}
    (horderly : OrderlyCalls env c) (h : RegistryInvariant c) : RegistryGuarantees c := by
  have hremoved : ∀ caller handle result,
      c.Returned caller (.unregister handle) (.status result) →
      (result = .ok () ↔ ∃ name, commitsBy c.log caller = [.removed handle name]) := by
    intro caller handle result hreturned
    unfold commitsBy
    rcases (horderly.unregisterPath hreturned).commits with
      ⟨exit, rfl, hnone⟩ | ⟨name, rfl, hone⟩
    · simp [hnone]
    · simp [hone]
  refine ⟨h.history.replays, h.history.uniqueNames, ?_, ?_, h.history.present, ?_, ?_, hremoved,
    ?_, ?_⟩
  · intro caller id name hcommit
    exact h.history.absent id (mem_removedIds.mpr ⟨caller, name, hcommit⟩)
  · intro caller caller' id entry entry' hcommit hcommit'
    exact congrArg Prod.fst
      (eq_of_nodup_filterMap h.history.installedOnce hcommit hcommit' rfl rfl)
  · intro caller name key rng os result hreturned id
    unfold commitsBy
    rcases (horderly.registerPath hreturned).commits with
      ⟨exit, rfl, hnone⟩ | ⟨id', entry, rfl, hname, hone⟩
    · simp [hnone]
    · rw [hone]
      constructor
      · intro hid
        cases hid
        exact ⟨entry, hname, rfl⟩
      · rintro ⟨_, -, hid⟩
        cases hid
        rfl
  · intro caller handle key rng os result hreturned
    unfold commitsBy
    rcases (horderly.rotatePath hreturned).commits with
      ⟨exit, rfl, hnone⟩ | ⟨name, fragments, metadata, rfl, hone⟩
    · simp [hnone]
    · simp [hone]
  · intro caller caller' handle hreturned hreturned'
    obtain ⟨name, hcommit⟩ := (hremoved caller handle _ hreturned).mp rfl
    obtain ⟨name', hcommit'⟩ := (hremoved caller' handle _ hreturned').mp rfl
    exact congrArg Prod.fst (eq_of_nodup_filterMap h.history.removedOnce
      (mem_commits_iff_commitsBy.mpr (by rw [hcommit]; exact List.mem_singleton.mpr rfl))
      (mem_commits_iff_commitsBy.mpr (by rw [hcommit']; exact List.mem_singleton.mpr rfl)) rfl rfl)
  · intro caller request response hreturned hfailed
    exact horderly.commitsBy_of_failed hreturned hfailed

/-! ### Registers that compete for a name -/

def VaultEvent.installsName (name : String) (event : VaultEvent) : Bool :=
  match VaultEvent.commit? event with
  | some (.inserted _ entry) => entry.name == name
  | _ => false

inductive SawName (name : String) : VaultEvent → Prop where
  | loaded {snapshot : KeyMap} (h : snapshot.hasName name = true) :
      SawName name (happened .loadKeys snapshot)
  | refused {id : KeyId} {entry : KeyEntry} (h : entry.name = name) :
      SawName name (happened (.insertKey id entry) false)

section Names

variable {r r' : Registry} {event : VaultEvent} {name : String}

theorem named_insert {id : KeyId} {entry : KeyEntry} (hnew : r id = none) :
    Registry.Named (Function.update r id (some entry)) name ↔
      r.Named name ∨ entry.name = name := by
  constructor
  · rintro ⟨other, found, hlookup, hname⟩
    by_cases hsame : other = id
    · rw [hsame, Function.update_self, Option.some.injEq] at hlookup
      exact .inr (by rw [hlookup, hname])
    · rw [Function.update_of_ne hsame] at hlookup
      exact .inl ⟨other, found, hlookup, hname⟩
  · rintro (⟨other, found, hlookup, hname⟩ | hname)
    · have hsame : other ≠ id := by
        intro hsame
        rw [hsame, hnew] at hlookup
        cases hlookup
      exact ⟨other, found, by rw [Function.update_of_ne hsame, hlookup], hname⟩
    · exact ⟨id, entry, Function.update_self .., hname⟩

theorem named_erase {id : KeyId} {entry : KeyEntry} (hlookup : r id = some entry)
    (hentry : entry.name ≠ name) :
    Registry.Named (Function.update r id none) name ↔ r.Named name := by
  constructor
  · rintro ⟨other, found, hfound, hname⟩
    by_cases hsame : other = id
    · rw [hsame, Function.update_self] at hfound
      cases hfound
    · rw [Function.update_of_ne hsame] at hfound
      exact ⟨other, found, hfound, hname⟩
  · rintro ⟨other, found, hfound, hname⟩
    have hsame : other ≠ id := by
      intro hsame
      rw [hsame, hlookup, Option.some.injEq] at hfound
      exact hentry (by rw [hfound, hname])
    exact ⟨other, found, by rw [Function.update_of_ne hsame, hfound], hname⟩

theorem named_replace {id : KeyId} {entry : KeyEntry} {fragments : Fragments}
    {metadata : KeyMetadata} (hlookup : r id = some entry) :
    Registry.Named (Function.update r id
      (some { entry with fragments := fragments, metadata := metadata })) name ↔ r.Named name := by
  constructor
  · rintro ⟨other, found, hfound, hname⟩
    by_cases hsame : other = id
    · rw [hsame, Function.update_self, Option.some.injEq] at hfound
      exact ⟨id, entry, hlookup, by rw [← hname, ← hfound]⟩
    · rw [Function.update_of_ne hsame] at hfound
      exact ⟨other, found, hfound, hname⟩
  · rintro ⟨other, found, hfound, hname⟩
    by_cases hsame : other = id
    · rw [hsame, hlookup, Option.some.injEq] at hfound
      exact ⟨id, _, Function.update_self .., by rw [← hname, ← hfound]⟩
    · exact ⟨other, found, by rw [Function.update_of_ne hsame, hfound], hname⟩

theorem Registry.Step.named (h : Registry.Step r event r') (hfresh : r.Fresh event)
    (hkeep : ∀ id, event ≠ happened (.removeKey id) (some name)) :
    (r'.Named name ↔ r.Named name ∨ VaultEvent.installsName name event = true) ∧
      (VaultEvent.installsName name event = true → ¬ r.Named name) ∧
      (SawName name event → r.Named name) := by
  have hquiet : ∀ {quiet : VaultEvent}, VaultEvent.commit? quiet = none →
      VaultEvent.installsName name quiet = false := by
    intro quiet hcommit
    unfold VaultEvent.installsName
    rw [hcommit]
  cases h with
  | @inserted id entry hfree =>
    have hinstalls : VaultEvent.installsName name (happened (.insertKey id entry) true) = true ↔
        entry.name = name := beq_iff_eq
    refine ⟨?_, ?_, ?_⟩
    · rw [hinstalls]
      exact named_insert (hfresh id entry rfl)
    · intro hname
      exact hinstalls.mp hname ▸ hfree
    · intro hsaw
      cases hsaw
  | duplicate hname =>
    rw [hquiet rfl]
    refine ⟨by simp, by simp, ?_⟩
    intro hsaw
    cases hsaw with
    | refused hentry => exact hentry ▸ hname
  | @removed id entry hlookup =>
    have hentry : entry.name ≠ name := by
      intro hname
      exact hkeep id (by rw [hname])
    have hinstalls : VaultEvent.installsName name
        (happened (.removeKey id) (some entry.name)) = false := rfl
    rw [hinstalls, named_erase hlookup hentry]
    exact ⟨by simp, by simp, by rintro ⟨⟩⟩
  | absent hlookup =>
    rw [hquiet rfl]
    exact ⟨by simp, by simp, by rintro ⟨⟩⟩
  | @replaced id entry fragments metadata hlookup =>
    have hinstalls : VaultEvent.installsName name
        (happened (.replaceKey id fragments metadata) (some entry.name)) = false := rfl
    rw [hinstalls, named_replace hlookup]
    exact ⟨by simp, by simp, by rintro ⟨⟩⟩
  | gone hlookup =>
    rw [hquiet rfl]
    exact ⟨by simp, by simp, by rintro ⟨⟩⟩
  | loaded hsnapshot =>
    rw [hquiet rfl]
    refine ⟨by simp, by simp, ?_⟩
    intro hsaw
    cases hsaw with
    | loaded hname =>
      have hsame : registryOf _ = r := funext hsnapshot
      exact hsame ▸ named_registryOf.mpr hname
  | other hop hload ret =>
    rw [hquiet (commit?_of_writes hop ret)]
    refine ⟨by simp, by simp, ?_⟩
    intro hsaw
    cases hsaw with
    | loaded hname => exact absurd rfl hload
    | refused hentry => cases hop

theorem Registry.Replays.name_history {events : List VaultEvent}
    (h : Registry.Replays r events r') (hfree : ¬ r.Named name)
    (hkeep : ∀ id, happened (.removeKey id) (some name) ∉ events) :
    (events.filter (VaultEvent.installsName name)).length ≤ 1 ∧
      (r'.Named name ↔ events.filter (VaultEvent.installsName name) ≠ []) ∧
      ∀ event ∈ events, SawName name event →
        events.filter (VaultEvent.installsName name) ≠ [] := by
  induction h with
  | nil =>
    refine ⟨Nat.zero_le _, by simp [hfree], ?_⟩
    intro event hevent
    cases hevent
  | @snoc events mid after event _ hstep hfresh ih =>
    obtain ⟨hcount, hnamed, hsaw⟩ := ih fun id hmem => hkeep id (List.mem_append_left _ hmem)
    have hkept : ∀ id, event ≠ happened (.removeKey id) (some name) := by
      intro id hsame
      exact hkeep id (List.mem_append_right _ (List.mem_singleton.mpr hsame.symm))
    obtain ⟨hafter, hinstalls, hsees⟩ := hstep.named hfresh hkept
    rw [List.filter_append]
    by_cases hevent : VaultEvent.installsName name event = true
    · have hnone : events.filter (VaultEvent.installsName name) = [] := by
        by_contra hsome
        exact hinstalls hevent (hnamed.mpr hsome)
      rw [hnone, List.filter_cons_of_pos hevent]
      simp [hafter, hevent]
    · rw [List.filter_cons_of_neg hevent, List.filter_nil, List.append_nil]
      refine ⟨hcount, by rw [hafter, hnamed]; simp [hevent], ?_⟩
      intro other hother hotherSaw
      rcases List.mem_append.mp hother with hold | hnew
      · exact hsaw other hold hotherSaw
      · rw [List.mem_singleton.mp hnew] at hotherSaw
        exact hnamed.mp (hsees hotherSaw)

end Names

/-- A `register` of `name` begun after `start`. -/
def Contender (start c : VaultConfiguration) (name : String) (caller : Nat) : Prop :=
  start.calls.length ≤ caller ∧
    ∃ key rng os rest, c.calls[caller]? = some ⟨.register name key rng os, rest⟩

/-- The call has returned and was not stopped by a lockout or a failure of
fragmentation. -/
def Unimpeded (env : Environment) (c : VaultConfiguration) (name : String) (caller : Nat) : Prop :=
  ∃ key rng os result fragments, c.Returned caller (.register name key rng os) (.handle result) ∧
    result ≠ fail .lockedOut ∧ fragmentForRegistry env os key rng = .ok fragments

def Registered (c : VaultConfiguration) (name : String) (caller : Nat) : Prop :=
  ∃ key rng os id, c.Returned caller (.register name key rng os) (.handle (.ok id))

/-- Of all registers of a free name that no unregister of that name overlaps and
that do not fail for another reason, exactly one succeeds. -/
def OneRegisterWins (env : Environment) (start c : VaultConfiguration) (name : String) : Prop :=
  start.shared.keys.hasName name = false →
  (∀ call ∈ start.calls, ∀ key rng os, call.request = .register name key rng os →
    ∃ response, call.rest = .done response) →
  (∀ entry ∈ c.log.drop start.log.length, ∀ id,
    entry.event ≠ happened (.removeKey id) (some name)) →
  (∃ caller, Contender start c name caller) →
  (∀ caller, Contender start c name caller → Unimpeded env c name caller) →
  ∃! caller, Contender start c name caller ∧ Registered c name caller

theorem contender_of_install {env : Environment} {start c : VaultConfiguration} {name : String}
    {later : List VaultEntry} {entry : VaultEntry} (hrun : (vaultMachine env).Reaches start c)
    (horderly : OrderlyCalls env c) (hlog : c.log = start.log ++ later) (hentry : entry ∈ later)
    (hinstalls : VaultEvent.installsName name entry.event = true)
    (hidle : ∀ call ∈ start.calls, ∀ key rng os, call.request = .register name key rng os →
      ∃ response, call.rest = .done response) : Contender start c name entry.caller := by
  have hmem : entry ∈ c.log := by
    rw [hlog]
    exact List.mem_append_right _ hentry
  obtain ⟨id, installed, hcommit, hname⟩ : ∃ id installed,
      VaultEvent.commit? entry.event = some (.inserted id installed) ∧ installed.name = name := by
    unfold VaultEvent.installsName at hinstalls
    split at hinstalls
    · rename_i id installed hcommit
      exact ⟨id, installed, hcommit, beq_iff_eq.mp hinstalls⟩
    · cases hinstalls
  obtain ⟨-, key, rng, os, rest, hcall⟩ :=
    horderly.installer (mem_commits.mpr ⟨entry, hmem, rfl, hcommit⟩)
  rw [hname] at hcall
  refine ⟨?_, key, rng, os, rest, hcall⟩
  by_contra hold
  have hlt : entry.caller < start.calls.length := by omega
  have hbegun := List.getElem?_eq_getElem hlt
  generalize start.calls[entry.caller] = call at hbegun
  have hrequest : call.request = .register name key rng os := by
    obtain ⟨rest', hlater⟩ := hrun.call_request hbegun
    rw [hcall] at hlater
    exact (congrArg Activation.request (Option.some.inj hlater)).symm
  obtain ⟨response, hdone⟩ := hidle call (List.mem_of_getElem? hbegun) key rng os hrequest
  have hreturned : start.Returned entry.caller call.request response := by
    unfold Config.Returned
    rw [hbegun, ← hdone]
  -- a finished call makes no entries, but this one made `entry`
  obtain ⟨-, hevents⟩ := hrun.returned_stays hreturned
  rw [hlog, eventsBy_append, List.append_right_eq_self] at hevents
  have hmine : entry.event ∈ eventsBy later entry.caller :=
    mem_eventsBy.mpr ⟨entry, hentry, rfl, rfl⟩
  rw [hevents] at hmine
  cases hmine

theorem RegisterPath.sawName {env : Environment} {name : String} {key : Bytes} {rng : Rng}
    {os : OsAnswers} {history : List VaultEvent} {result : Result KeyId} {fragments : Fragments}
    (h : RegisterPath env name key rng os history result) (hlocked : result ≠ fail .lockedOut)
    (hfragment : fragmentForRegistry env os key rng = .ok fragments) :
    (∃ id, result = .ok id) ∨ ∃ event ∈ history, SawName name event := by
  cases h with
  | lockedOut => exact absurd rfl hlocked
  | duplicate snapshot hname =>
    exact .inr ⟨_, List.mem_cons_of_mem _ (List.mem_singleton.mpr rfl), .loaded hname⟩
  | failed snapshot exit hfailed =>
    rw [hfragment] at hfailed
    cases hfailed
  | refused snapshot id time entry hentry =>
    exact .inr ⟨_, List.mem_append_right _ (List.mem_singleton.mpr rfl), .refused hentry⟩
  | installed snapshot id time fragments _ => exact .inl ⟨id, rfl⟩

theorem RegisterPath.ok_of_install {env : Environment} {name : String} {key : Bytes} {rng : Rng}
    {os : OsAnswers} {history : List VaultEvent} {result : Result KeyId} {event : VaultEvent}
    (h : RegisterPath env name key rng os history result) (hevent : event ∈ history)
    (hinstalls : VaultEvent.installsName name event = true) : ∃ id, result = .ok id := by
  rcases h.commits with ⟨exit, rfl, hnone⟩ | ⟨id, entry, hok, -, -⟩
  · rw [List.filterMap_eq_nil_iff] at hnone
    unfold VaultEvent.installsName at hinstalls
    rw [hnone event hevent] at hinstalls
    cases hinstalls
  · exact ⟨id, hok⟩

theorem RegisterPath.install_of_ok {env : Environment} {name : String} {key : Bytes} {rng : Rng}
    {os : OsAnswers} {history : List VaultEvent} {id : KeyId}
    (h : RegisterPath env name key rng os history (.ok id)) :
    ∃ event ∈ history, VaultEvent.installsName name event = true := by
  rcases h.commits with ⟨exit, heq, -⟩ | ⟨id', entry, -, hname, hone⟩
  · cases heq
  · have hmem : Commit.inserted id' entry ∈ history.filterMap VaultEvent.commit? := by
      rw [hone]
      exact List.mem_singleton.mpr rfl
    obtain ⟨event, hevent, hcommit⟩ := List.mem_filterMap.mp hmem
    refine ⟨event, hevent, ?_⟩
    unfold VaultEvent.installsName
    rw [hcommit]
    exact beq_iff_eq.mpr hname

def installsOf (name : String) (later : List VaultEntry) : List VaultEntry :=
  later.filter fun entry => VaultEvent.installsName name entry.event

section Race

variable {env : Environment} {start c : VaultConfiguration} {name : String}
  {later : List VaultEntry}

theorem filter_logEvents (name : String) (later : List VaultEntry) :
    (logEvents later).filter (VaultEvent.installsName name) = logEvents (installsOf name later) :=
  List.filter_map

theorem Contender.eventsBy_eq {caller : Nat} (h : Contender start c name caller)
    (hstart : OrderlyCalls env start) (hlog : c.log = start.log ++ later) :
    eventsBy c.log caller = eventsBy later caller := by
  have hnone : eventsBy start.log caller = [] := by
    rw [List.eq_nil_iff_forall_not_mem]
    intro event hevent
    obtain ⟨entry, hentry, rfl, -⟩ := mem_eventsBy.mp hevent
    obtain ⟨rest, hcall⟩ := hstart.logged entry hentry
    have hlt := (List.getElem?_eq_some_iff.mp hcall).1
    have hle := h.1
    omega
  rw [hlog, eventsBy_append, hnone, List.nil_append]

theorem Contender.installs {caller : Nat} (h : Contender start c name caller)
    (hstart : OrderlyCalls env start) (horderly : OrderlyCalls env c)
    (hlog : c.log = start.log ++ later) (hregistered : Registered c name caller) :
    ∃ entry ∈ installsOf name later, entry.caller = caller := by
  obtain ⟨key, rng, os, id, hreturned⟩ := hregistered
  obtain ⟨event, hevent, hinstalls⟩ := (horderly.registerPath hreturned).install_of_ok
  rw [h.eventsBy_eq hstart hlog] at hevent
  obtain ⟨entry, hentry, hcaller, rfl⟩ := mem_eventsBy.mp hevent
  exact ⟨entry, List.mem_filter.mpr ⟨hentry, hinstalls⟩, hcaller⟩

theorem registered_of_install (hrun : (vaultMachine env).Reaches start c)
    (hstart : OrderlyCalls env start) (horderly : OrderlyCalls env c)
    (hlog : c.log = start.log ++ later)
    (hidle : ∀ call ∈ start.calls, ∀ key rng os, call.request = .register name key rng os →
      ∃ response, call.rest = .done response)
    (hunimpeded : ∀ caller, Contender start c name caller → Unimpeded env c name caller)
    {entry : VaultEntry} (hentry : entry ∈ installsOf name later) :
    Contender start c name entry.caller ∧ Registered c name entry.caller := by
  obtain ⟨hlater, hinstalls⟩ := List.mem_filter.mp hentry
  have hcontender := contender_of_install hrun horderly hlog hlater hinstalls hidle
  obtain ⟨key, rng, os, result, fragments, hreturned, -, -⟩ := hunimpeded _ hcontender
  have hmine : entry.event ∈ eventsBy c.log entry.caller := by
    rw [hcontender.eventsBy_eq hstart hlog]
    exact mem_eventsBy.mpr ⟨entry, hlater, rfl, rfl⟩
  obtain ⟨id, rfl⟩ := (horderly.registerPath hreturned).ok_of_install hmine hinstalls
  exact ⟨hcontender, key, rng, os, id, hreturned⟩

theorem Contender.sawName {caller : Nat} (h : Contender start c name caller)
    (hstart : OrderlyCalls env start) (horderly : OrderlyCalls env c)
    (hlog : c.log = start.log ++ later) (hunimpeded : Unimpeded env c name caller) :
    Registered c name caller ∨ ∃ event ∈ logEvents later, SawName name event := by
  obtain ⟨key, rng, os, result, fragments, hreturned, hlocked, hfragment⟩ := hunimpeded
  rcases (horderly.registerPath hreturned).sawName hlocked hfragment with
    ⟨id, rfl⟩ | ⟨event, hevent, hsees⟩
  · exact .inl ⟨key, rng, os, id, hreturned⟩
  · rw [h.eventsBy_eq hstart hlog] at hevent
    obtain ⟨entry, hentry, -, rfl⟩ := mem_eventsBy.mp hevent
    exact .inr ⟨entry.event, List.mem_map_of_mem hentry, hsees⟩

end Race

theorem eq_of_length_le_one {α : Type} {items : List α} (h : items.length ≤ 1) {left right : α}
    (hleft : left ∈ items) (hright : right ∈ items) : left = right := by
  match items, h with
  | [only], _ => rw [List.mem_singleton.mp hleft, List.mem_singleton.mp hright]

theorem oneRegisterWins {env : Environment} {start c : VaultConfiguration} (name : String)
    (hrun : (vaultMachine env).Reaches start c) (hstart : OrderlyCalls env start)
    (hinvariant : start.shared.handleCounter < 2 ^ 64 → RegistryInvariant start)
    (hhandles : c.shared.handleCounter < 2 ^ 64) : OneRegisterWins env start c name := by
  intro hunused hidle hkeep hsome hunimpeded
  have horderly : OrderlyCalls env c := hrun.orderly (program_obeys env) hstart
  obtain ⟨later, hlog, hreplays⟩ := replays_between hrun hstart hinvariant hhandles
  rw [hlog, List.drop_left] at hkeep
  have hfree : ¬ (registryOf start.shared.keys).Named name := by
    rw [named_registryOf, hunused]
    exact Bool.false_ne_true
  have hkept : ∀ id, happened (.removeKey id) (some name) ∉ logEvents later := by
    intro id hmem
    obtain ⟨entry, hentry, hevent⟩ := List.mem_map.mp hmem
    exact hkeep entry hentry id hevent
  obtain ⟨hcount, -, hsaw⟩ := hreplays.name_history hfree hkept
  rw [filter_logEvents] at hcount hsaw
  have hcount' : (installsOf name later).length ≤ 1 := by
    rw [logEvents, List.length_map] at hcount
    exact hcount
  obtain ⟨winner, hwon⟩ : ∃ winner, Contender start c name winner ∧ Registered c name winner := by
    obtain ⟨first, hfirst⟩ := hsome
    rcases hfirst.sawName hstart horderly hlog (hunimpeded first hfirst) with
      hregistered | ⟨event, hevent, hsees⟩
    · exact ⟨first, hfirst, hregistered⟩
    · have hinstalled : installsOf name later ≠ [] := by
        intro hnone
        apply hsaw event hevent hsees
        rw [hnone]
        rfl
      obtain ⟨entry, hentry⟩ := List.exists_mem_of_ne_nil _ hinstalled
      exact ⟨entry.caller,
        registered_of_install hrun hstart horderly hlog hidle hunimpeded hentry⟩
  refine ⟨winner, hwon, ?_⟩
  intro other hother
  obtain ⟨entry, hentry, rfl⟩ := hwon.1.installs hstart horderly hlog hwon.2
  obtain ⟨entry', hentry', rfl⟩ := hother.1.installs hstart horderly hlog hother.2
  rw [eq_of_length_le_one hcount' hentry hentry']

/-- The registry behaves as a sequential map at its critical sections, whatever
the interleaving, as long as fewer than `2 ^ 64` handles are given out. -/
theorem registry_linearizes {env : Environment} {clock unixTime : Duration} {handles : Nat}
    {start c : VaultConfiguration}
    (hstart : (vaultMachine env).Reaches (Config.start (Vault.new clock unixTime handles)) start)
    (hrun : (vaultMachine env).Reaches start c) (hhandles : c.shared.handleCounter < 2 ^ 64) :
    RegistryGuarantees c ∧ ∀ name, OneRegisterWins env start c name := by
  obtain ⟨horderly, hinvariant⟩ := registryInvariant_start env clock unixTime handles
  obtain ⟨hstartOrderly, hstartInvariant⟩ :=
    registryInvariant_run hstart ⟨horderly, fun _ => hinvariant⟩
  obtain ⟨hcOrderly, hcInvariant⟩ :=
    registryInvariant_run hrun ⟨hstartOrderly, hstartInvariant⟩
  refine ⟨registryGuarantees_of_invariant hcOrderly (hcInvariant hhandles), ?_⟩
  intro name
  exact oneRegisterWins name hrun hstartOrderly hstartInvariant hhandles

def registerRace : List (Action Request Surroundings) :=
  [.invoke (.register "k" [1, 2, 3] (.constant 5) ⟨true, true, true⟩),
    .invoke (.register "k" [4, 5] (.constant 6) ⟨true, true, true⟩)] ++
  (List.replicate 5 [.exec 0, .exec 1]).flatten

theorem registry_linearizes_race : ∃ c : VaultConfiguration,
    (vaultMachine (.plain {})).Reaches (Config.start (Vault.new 0 0 0)) c ∧
      c.results = [some (.handle (.ok 1)), some (.handle (fail (duplicateName "k")))] ∧
      RegistryGuarantees c ∧
      ∀ name, OneRegisterWins (.plain {}) (Config.start (Vault.new 0 0 0)) c name := by
  have hrace : ((vaultMachine (.plain {})).follow (Config.start (Vault.new 0 0 0))
      registerRace).map (fun c => (c.shared.handleCounter, c.results)) =
        some (2, [some (.handle (.ok 1)), some (.handle (fail (duplicateName "k")))]) := by
    decide +kernel
  obtain ⟨c, hfollow, hc⟩ := Option.map_eq_some_iff.mp hrace
  rw [Prod.mk.injEq] at hc
  obtain ⟨hhandles, hresults⟩ := hc
  have hrun := Machine.follow_reaches hfollow
  obtain ⟨hguarantees, hone⟩ := registry_linearizes (.refl _) hrun (by rw [hhandles]; decide)
  exact ⟨c, hrun, hresults, hguarantees, hone⟩

end KeyVault
