import KeyVault.Extents
import KeyVault.LayeredFragmenter
import KeyVault.Ledger
import KeyVault.VaultProgram

/-! Page protection at the grain of single references: versions of the registry map,
shared fragment storage with its strong count, and the region behind it with its count
of readers. Readers, `register`, `rotate` and `unregister` interleave freely, and every
request to change a protection may be refused. What the lockout checks answer is left
to the other calls and may be anything. -/
namespace KeyVault

open Extents Ledger

inductive Access where
  | none
  | read
  | readWrite
deriving DecidableEq, Repr

/-- The changing part of a `GuardedRegion`. -/
structure RegionState where
  access : Access
  readers : Nat
  mapped : Bool
deriving DecidableEq, Repr

namespace RegionState

def sealed : RegionState := ⟨.none, 0, true⟩

/-- `open`, which holds the lock of `readers` throughout; `none` is a refusal. -/
def «open» (r : RegionState) (protects : Bool) : Option RegionState :=
  if r.readers = 0 then
    if protects then some { r with access := .read, readers := r.readers + 1 } else none
  else some { r with readers := r.readers + 1 }

/-- `drop` of a `RegionAccess`. -/
def close (r : RegionState) (protects : Bool) : RegionState :=
  let r := { r with readers := r.readers - 1 }
  if r.readers = 0 then if protects then { r with access := .none } else r
  else r

/-- `drop` of the region: whatever `protect` answers, the mapping goes away. -/
def drop (r : RegionState) (protects : Bool) : RegionState :=
  let r := if protects then { r with access := .readWrite } else r
  { r with mapped := false }

end RegionState

structure ProtectedEntry where
  name : String
  store : Nat
deriving DecidableEq, Repr

abbrev ProtectedMap := AList fun _ : KeyId => ProtectedEntry

namespace ProtectedMap

def hasName (map : ProtectedMap) (name : String) : Bool :=
  map.entries.any fun entry => entry.2.name == name

def stores (map : ProtectedMap) : List Nat := map.entries.map fun entry => entry.2.store

end ProtectedMap

/-- Versions of the registry map and fragment storage, each numbered in the order they
were made and kept with its strong count. -/
structure ProtectedState where
  maps : Nat → ProtectedMap
  mapRefs : Nat → Nat
  mapCount : Nat
  current : Nat
  fragments : Nat → Fragments
  storeRefs : Nat → Nat
  storeCount : Nat
  regions : Nat → RegionState
  /-- The last reader of a region was not allowed to make it inaccessible. -/
  closeRefused : Bool

structure ProtectAnswers where
  lockedOut : Bool
  keyLocked : Bool
  os : OsAnswers
  protects : Bool
  /-- For the regions that are dropped during the step. -/
  drops : Nat → Bool
  handle : KeyId

inductive ProtectedRequest where
  | withKey (handle : KeyId) (scratch : Bytes)
  | register (name : String) (key : Bytes) (rng : Rng)
  | rotate (handle : KeyId) (key : Bytes) (rng : Rng)
  | unregister (handle : KeyId)

/-- For `with_key`, the bytes that the callback was given. -/
inductive ProtectedResult where
  | bytes (bytes : Bytes)
  | handle (handle : KeyId)
  | unit
deriving DecidableEq, Repr

/-- How far a call has come, with the references it holds. -/
inductive Phase where
  | start
  | looked (map : Nat)
  | sharing (map store : Nat)
  | shared (store : Nat)
  | reading (store : Nat) (guard : Bool)
  | finished (store : Nat) (outcome : Result ProtectedResult)
  | fragmenting
  | made (store : Nat)
  | installed (previous : Nat) (outcome : Result ProtectedResult)
  | returned (outcome : Result ProtectedResult)

namespace Phase

def snapshots : Phase → List Nat
  | .looked map | .sharing map _ | .installed map _ => [map]
  | _ => []

def shares : Phase → List Nat
  | .sharing _ store | .shared store | .reading store _ | .finished store _ | .made store => [store]
  | _ => []

def guards : Phase → List Nat
  | .reading store true => [store]
  | _ => []

end Phase

namespace ProtectedState

def new : ProtectedState where
  maps := fun _ => ∅
  mapRefs := Function.update (fun _ => 0) 0 1
  mapCount := 1
  current := 0
  fragments := fun _ => Fragments.fromParts [] [] 0
  storeRefs := fun _ => 0
  storeCount := 0
  regions := fun _ => RegionState.sealed
  closeRefused := false

def load (s : ProtectedState) : ProtectedState :=
  { s with mapRefs := Function.update s.mapRefs s.current (s.mapRefs s.current + 1) }

def share (s : ProtectedState) (store : Nat) : ProtectedState :=
  { s with storeRefs := Function.update s.storeRefs store (s.storeRefs store + 1) }

def dropStore (drops : Nat → Bool) (s : ProtectedState) (store : Nat) : ProtectedState :=
  let s := { s with storeRefs := Function.update s.storeRefs store (s.storeRefs store - 1) }
  if s.storeRefs store = 0 then
    { s with regions := Function.update s.regions store ((s.regions store).drop (drops store)) }
  else s

def dropMap (drops : Nat → Bool) (s : ProtectedState) (map : Nat) : ProtectedState :=
  let s := { s with mapRefs := Function.update s.mapRefs map (s.mapRefs map - 1) }
  if s.mapRefs map = 0 then
    let stores := (s.maps map).stores
    stores.foldl (dropStore drops) { s with maps := Function.update s.maps map ∅ }
  else s

def create (s : ProtectedState) (fragments : Fragments) : ProtectedState :=
  { s with
    fragments := Function.update s.fragments s.storeCount fragments
    storeRefs := Function.update s.storeRefs s.storeCount (s.storeRefs s.storeCount + 1)
    regions := Function.update s.regions s.storeCount RegionState.sealed
    storeCount := s.storeCount + 1 }

/-- The critical section of a writer: clone the current map, edit the clone at `handle`
and swap it in. The clone's own reference to what was stored there is dropped; the
registry's reference to the old version passes to the caller. -/
def install (drops : Nat → Bool) (s : ProtectedState) (handle : KeyId)
    (edit : ProtectedMap → ProtectedMap) : ProtectedState :=
  let map := s.maps s.current
  let s := map.stores.foldl share s
  let s := match map.lookup handle with
    | none => s
    | some entry => s.dropStore drops entry.store
  { s with
    maps := Function.update s.maps s.mapCount (edit map)
    mapRefs := Function.update s.mapRefs s.mapCount (s.mapRefs s.mapCount + 1)
    mapCount := s.mapCount + 1
    current := s.mapCount }

def setRegion (s : ProtectedState) (store : Nat) (region : RegionState) : ProtectedState :=
  { s with regions := Function.update s.regions store region }

def closeStore (s : ProtectedState) (protects : Bool) (store : Nat) : ProtectedState :=
  let region := (s.regions store).close protects
  { s.setRegion store region with
    closeRefused := s.closeRefused || (region.readers == 0 && !protects) }

def openStore (env : Environment) (s : ProtectedState) (protects : Bool) (store : Nat) :
    ProtectedState × Phase :=
  if env.config.pageProtection ∧ (s.fragments store).region.isSome then
    match (s.regions store).open protects with
    | some region => (s.setRegion store region, .reading store true)
    | none => (s, .finished store (fail (.memoryLock "could not make the key's pages readable")))
  else (s, .reading store false)

/-- The rest of `read_key`. The guard is gone before the codex and the callback run, and
also if `defragment_into` fails. -/
def finishRead (env : Environment) (s : ProtectedState) (protects : Bool) (scratch : Bytes)
    (store : Nat) (guard : Bool) : ProtectedState × Phase :=
  let outcome := (readKey env (s.fragments store) true scratch ProtectedResult.bytes).1
  (if guard then s.closeStore protects store else s, .finished store outcome)

def advance (env : Environment) (answers : ProtectAnswers) (s : ProtectedState) :
    ProtectedRequest → Phase → Option (ProtectedState × Phase)
  | .unregister handle, .start =>
      match (s.maps s.current).lookup handle with
      | none => some (s, .returned (fail .keyNotFound))
      | some _ => some (s.install answers.drops handle (fun map => map.erase handle),
          .installed s.current (.ok .unit))
  | .withKey _ _, .start | .register _ _ _, .start | .rotate _ _ _, .start =>
      if answers.lockedOut then some (s, .returned (fail .lockedOut))
      else some (s.load, .looked s.current)
  | .withKey handle _, .looked map =>
      match (s.maps map).lookup handle with
      | none => some (s.dropMap answers.drops map, .returned (fail .keyNotFound))
      | some entry =>
          if answers.keyLocked then some (s.dropMap answers.drops map, .returned (fail .lockedOut))
          else some (s.share entry.store, .sharing map entry.store)
  | .rotate handle _ _, .looked map =>
      match (s.maps map).lookup handle with
      | none => some (s.dropMap answers.drops map, .returned (fail .keyNotFound))
      | some _ =>
          if answers.keyLocked then some (s.dropMap answers.drops map, .returned (fail .lockedOut))
          else some (s.dropMap answers.drops map, .fragmenting)
  | .register name _ _, .looked map =>
      if (s.maps map).hasName name then
        some (s.dropMap answers.drops map, .returned (fail (duplicateName name)))
      else some (s.dropMap answers.drops map, .fragmenting)
  | .withKey _ _, .sharing map store => some (s.dropMap answers.drops map, .shared store)
  | .withKey _ _, .shared store => some (s.openStore env answers.protects store)
  | .withKey _ scratch, .reading store guard =>
      some (s.finishRead env answers.protects scratch store guard)
  | .withKey _ _, .finished store outcome =>
      some (s.dropStore answers.drops store, .returned outcome)
  | .register _ key rng, .fragmenting | .rotate _ key rng, .fragmenting =>
      match fragmentForRegistry env answers.os key rng with
      | .error exit => some (s, .returned (.error exit))
      | .ok fragments => some (s.create fragments, .made s.storeCount)
  | .register name _ _, .made store =>
      if (s.maps s.current).hasName name then
        some (s.dropStore answers.drops store, .returned (fail (duplicateName name)))
      else some (s.install answers.drops answers.handle
          (fun map => map.insert answers.handle ⟨name, store⟩),
        .installed s.current (.ok (.handle answers.handle)))
  | .rotate handle _ _, .made store =>
      match (s.maps s.current).lookup handle with
      | none => some (s.dropStore answers.drops store, .returned (fail .keyNotFound))
      | some entry => some (s.install answers.drops handle
          (fun map => map.insert handle { entry with store := store }),
        .installed s.current (.ok .unit))
  | _, .installed previous outcome =>
      some (s.dropMap answers.drops previous, .returned outcome)
  | _, _ => none

end ProtectedState

structure ProtectedCall where
  request : ProtectedRequest
  phase : Phase

structure ProtectedVault where
  state : ProtectedState
  calls : List ProtectedCall

inductive ProtectedAction where
  | invoke (request : ProtectedRequest)
  | advance (caller : Nat) (answers : ProtectAnswers)

namespace ProtectedVault

def new : ProtectedVault := ⟨.new, []⟩

def step (env : Environment) (s : ProtectedVault) : ProtectedAction → Option ProtectedVault
  | .invoke request => some { s with calls := s.calls ++ [⟨request, .start⟩] }
  | .advance caller answers =>
      match s.calls[caller]? with
      | none => none
      | some call =>
          (s.state.advance env answers call.request call.phase).map fun out =>
            ⟨out.1, s.calls.set caller ⟨call.request, out.2⟩⟩

def run (env : Environment) (actions : List ProtectedAction) : Option ProtectedVault :=
  actions.foldlM (step env) new

end ProtectedVault

namespace ProtectedMap

variable (map : ProtectedMap) (handle : KeyId)

variable {map handle}

theorem stores_perm {entry : ProtectedEntry} (h : map.lookup handle = some entry) :
    map.stores.Perm (entry.store :: stores (map.erase handle)) := by
  have hkey : handle ∈ map.entries.keys := AList.mem_keys.mp (AList.lookup_isSome.mp (by rw [h]; rfl))
  obtain ⟨value, before, after, hbefore, hentries, herase⟩ := List.exists_of_kerase hkey
  have hvalue : value = entry := by
    have hmem : (⟨handle, value⟩ : Sigma fun _ : KeyId => ProtectedEntry) ∈ map.entries := by
      rw [hentries]
      exact List.mem_append_right _ (List.mem_cons_self ..)
    have hlookup := AList.mem_lookup_iff.mpr hmem
    rw [h] at hlookup
    exact (Option.some.inj hlookup).symm
  subst hvalue
  have hrest : stores (map.erase handle) =
      (before ++ after).map fun entry => entry.2.store := congrArg (List.map _) herase
  rw [hrest]
  unfold stores
  rw [hentries, List.map_append, List.map_append, List.map_cons]
  exact List.perm_middle

theorem stores_erase_of_none (h : map.lookup handle = none) :
    stores (map.erase handle) = map.stores := by
  apply congrArg (List.map _)
  apply List.kerase_of_notMem_keys
  intro hkey
  have hmem : handle ∈ map := AList.mem_keys.mpr hkey
  exact AList.lookup_eq_none.mp h hmem

end ProtectedMap

/-! ### One region -/

/-- The region has that many readers, and is there while its storage is referenced.
While it is read it is readable, and otherwise not, unless closing it was refused. -/
structure RegionState.Sound (r : RegionState) (readers refs : Nat) (refused : Bool) : Prop where
  count : r.readers = readers
  mapped : r.mapped = true ↔ 0 < refs
  readable : 0 < readers → r.access = .read
  closed : refused = false → 0 < refs → readers = 0 → r.access = .none

namespace RegionState

variable {r r' : RegionState} {readers refs : Nat} {refused : Bool}

theorem sound_sealed (refs : Nat) (refused : Bool) : sealed.Sound 0 (refs + 1) refused where
  count := rfl
  mapped := ⟨fun _ => Nat.succ_pos refs, fun _ => rfl⟩
  readable hpos := absurd hpos (Nat.lt_irrefl 0)
  closed _ _ _ := rfl

theorem Sound.of_refs (h : r.Sound readers refs refused) {refs' : Nat} (hrefs : 0 < refs)
    (hrefs' : 0 < refs') : r.Sound readers refs' refused :=
  { h with
    mapped := ⟨fun _ => hrefs', fun _ => h.mapped.mpr hrefs⟩
    closed := fun hrefused _ => h.closed hrefused hrefs }

theorem Sound.refuse (h : r.Sound readers refs refused) (more : Bool) :
    r.Sound readers refs (refused || more) :=
  { h with closed := fun hrefused => h.closed (Bool.or_eq_false_iff.mp hrefused).1 }

theorem Sound.drop (h : r.Sound 0 refs refused) (protects : Bool) :
    (r.drop protects).Sound 0 0 refused where
  count := by
    unfold RegionState.drop
    split <;> exact h.count
  mapped := by
    unfold RegionState.drop
    split <;> simp
  readable hpos := absurd hpos (Nat.lt_irrefl 0)
  closed _ hpos := absurd hpos (Nat.lt_irrefl 0)

theorem Sound.open (h : r.Sound readers refs refused) {protects : Bool}
    (hopen : r.open protects = some r') : r'.Sound (readers + 1) refs refused := by
  have haccess : r'.readers = r.readers + 1 ∧ r'.mapped = r.mapped ∧ r'.access = .read := by
    unfold RegionState.open at hopen
    split at hopen
    · split at hopen
      · cases hopen
        exact ⟨rfl, rfl, rfl⟩
      · cases hopen
    · rename_i hreaders
      cases hopen
      exact ⟨rfl, rfl, h.readable (by rw [← h.count]; exact Nat.pos_of_ne_zero hreaders)⟩
  obtain ⟨hreaders, hmapped, hread⟩ := haccess
  exact ⟨by rw [hreaders, h.count], by rw [hmapped]; exact h.mapped, fun _ => hread,
    fun _ _ hzero => absurd hzero (Nat.succ_ne_zero readers)⟩

theorem Sound.close (h : r.Sound (readers + 1) refs refused) (protects : Bool) :
    (r.close protects).Sound readers refs
      (refused || ((r.close protects).readers == 0 && !protects)) := by
  have hreaders : (r.close protects).readers = readers := by
    unfold RegionState.close
    dsimp only
    rw [h.count, Nat.add_sub_cancel]
    split
    · split <;> rfl
    · rfl
  have hmapped : (r.close protects).mapped = r.mapped := by
    unfold RegionState.close
    dsimp only
    split
    · split <;> rfl
    · rfl
  refine ⟨hreaders, by rw [hmapped]; exact h.mapped, ?_, ?_⟩
  · intro hpos
    have hread := h.readable (Nat.succ_pos readers)
    unfold RegionState.close
    dsimp only
    rw [h.count, Nat.add_sub_cancel, if_neg (Nat.ne_of_gt hpos)]
    exact hread
  · intro hrefused _ hzero
    rw [hreaders, hzero] at hrefused
    have hprotects : protects = true := by
      simpa using (Bool.or_eq_false_iff.mp hrefused).2
    unfold RegionState.close
    dsimp only
    rw [h.count, hzero, if_pos rfl, if_pos hprotects]

end RegionState

/-! ### What each step does to the references -/

namespace ProtectedState

theorem current_dropStore (drops : Nat → Bool) (s : ProtectedState) (store : Nat) :
    (s.dropStore drops store).current = s.current := by
  unfold dropStore
  dsimp only
  split <;> rfl

theorem current_shareAll (stores : List Nat) (s : ProtectedState) :
    (stores.foldl share s).current = s.current := by
  induction stores generalizing s with
  | nil => rfl
  | cons store stores ih => exact ih (s.share store)

def mapStores (s : ProtectedState) : List Nat :=
  (List.range s.mapCount).flatMap fun map => (s.maps map).stores

theorem mapStores_perm (s : ProtectedState) {map : Nat} (hmap : map < s.mapCount) :
    s.mapStores.Perm ((s.maps map).stores ++ (List.range s.mapCount).flatMap fun other =>
      (Function.update s.maps map ∅ other).stores) := by
  have hall : (s.maps map).stores.Perm ((s.maps map).stores ++ []) := by
    rw [List.append_nil]
  have hmoved := Ledger.perm_flatMap_update List.nodup_range (List.mem_range.mpr hmap)
    (fun map => (s.maps map).stores) hall
  have hrest : Function.update (fun map => (s.maps map).stores) map [] =
      fun other => (Function.update s.maps map ∅ other).stores := by
    funext other
    by_cases hother : other = map
    · subst hother
      rw [Function.update_self, Function.update_self]
      rfl
    · rw [Function.update_of_ne hother, Function.update_of_ne hother]
  rw [hrest] at hmoved
  exact hmoved

/-- The counts agree with the references that exist: those of the registry and of the
versions of its map, and those that calls hold. -/
structure Accounted (env : Environment) (s : ProtectedState) (snapshots shares guards : List Nat) :
    Prop where
  maps : Balanced s.mapRefs (s.current :: snapshots)
  knownMaps : ∀ map ∈ s.current :: snapshots, map < s.mapCount
  stores : Balanced s.storeRefs (s.mapStores ++ shares)
  knownStores : ∀ store ∈ s.mapStores ++ shares, store < s.storeCount
  /-- Whoever has a guard has a reference. -/
  guarded : ∀ store, guards.count store ≤ shares.count store
  regions : ∀ store < s.storeCount,
    (s.regions store).Sound (guards.count store) (s.storeRefs store) s.closeRefused
  protect : ∀ store < s.storeCount,
    (s.fragments store).region.isSome = env.config.pageProtection

variable {env : Environment} {s : ProtectedState} {snapshots shares guards : List Nat}

theorem accounted_new (env : Environment) : Accounted env new [] [] [] where
  maps := by
    intro map
    show Function.update (fun _ => 0) 0 1 map = List.count map [0]
    by_cases hmap : map = 0
    · subst hmap
      rfl
    · rw [Function.update_of_ne hmap, List.count_cons_of_ne (Ne.symm hmap), List.count_nil]
  knownMaps map hmap := by
    rw [List.mem_singleton.mp hmap]
    exact Nat.one_pos
  stores store := rfl
  knownStores store hstore := by cases hstore
  guarded store := Nat.le_refl 0
  regions store hstore := absurd hstore (Nat.not_lt_zero store)
  protect store hstore := absurd hstore (Nat.not_lt_zero store)

namespace Accounted

variable (h : Accounted env s snapshots shares guards)
include h

theorem perm {snapshots' shares' guards' : List Nat} (hsnapshots : snapshots.Perm snapshots')
    (hshares : shares.Perm shares') (hguards : guards.Perm guards') :
    Accounted env s snapshots' shares' guards' :=
  { h with
    maps := h.maps.perm (hsnapshots.cons _)
    knownMaps := fun map hmap => h.knownMaps map ((hsnapshots.cons _).mem_iff.mpr hmap)
    stores := h.stores.perm (hshares.append_left _)
    knownStores := fun store hstore =>
      h.knownStores store ((hshares.append_left _).mem_iff.mpr hstore)
    guarded := fun store => by
      rw [← hguards.count_eq, ← hshares.count_eq]
      exact h.guarded store
    regions := fun store hstore => by
      rw [← hguards.count_eq]
      exact h.regions store hstore }

theorem load : Accounted env s.load (s.current :: snapshots) shares guards :=
  { h with
    maps := (h.maps.acquire s.current)
    knownMaps := fun map hmap => by
      rcases List.mem_cons.mp hmap with rfl | hmap
      · exact h.knownMaps _ (List.mem_cons_self ..)
      · exact h.knownMaps map hmap }

theorem mem_mapStores {map : Nat} (hmap : map ∈ s.current :: snapshots) {handle : KeyId}
    {entry : ProtectedEntry} (hlookup : (s.maps map).lookup handle = some entry) :
    entry.store ∈ s.mapStores := by
  apply List.mem_flatMap.mpr
  refine ⟨map, List.mem_range.mpr (h.knownMaps map hmap), ?_⟩
  exact List.mem_map.mpr ⟨⟨handle, entry⟩, AList.mem_lookup_iff.mp hlookup, rfl⟩

theorem share {store : Nat} (hstore : store ∈ s.mapStores ++ shares) :
    Accounted env (s.share store) snapshots (store :: shares) guards :=
  { h with
    stores := (h.stores.acquire store).perm List.perm_middle.symm
    knownStores := fun other hother => by
      apply h.knownStores
      rcases List.mem_append.mp hother with hother | hother
      · exact List.mem_append_left _ hother
      · rcases List.mem_cons.mp hother with rfl | hother
        · exact hstore
        · exact List.mem_append_right _ hother
    guarded := fun other => (h.guarded other).trans (List.count_le_count_cons)
    regions := fun other hother => by
      show (s.regions other).Sound (guards.count other)
        (Function.update s.storeRefs store (s.storeRefs store + 1) other) s.closeRefused
      by_cases hsame : other = store
      · subst hsame
        rw [Function.update_self]
        exact (h.regions other hother).of_refs (h.stores.pos_iff.mpr hstore) (Nat.succ_pos _)
      · rw [Function.update_of_ne hsame]
        exact h.regions other hother }

omit h in
theorem dropStore {store : Nat} (h : Accounted env s snapshots (store :: shares) guards)
    (hguarded : ∀ store, guards.count store ≤ shares.count store) (drops : Nat → Bool) :
    Accounted env (s.dropStore drops store) snapshots shares guards := by
  have hstores := (h.stores.perm List.perm_middle).release
  have hknown : ∀ other ∈ s.mapStores ++ shares, other < s.storeCount := by
    intro other hother
    apply h.knownStores
    exact List.perm_middle.mem_iff.mpr (List.mem_cons_of_mem _ hother)
  have hheld : store ∈ s.mapStores ++ store :: shares :=
    List.mem_append_right _ (List.mem_cons_self ..)
  have hregion := h.regions store (h.knownStores store hheld)
  unfold ProtectedState.dropStore
  dsimp only
  split
  · -- the last reference: nobody reads the region, and it is unmapped
    rename_i hzero
    have hnoReaders : guards.count store = 0 := by
      have hle : shares.count store ≤ (s.mapStores ++ shares).count store := by
        rw [List.count_append]
        exact Nat.le_add_left ..
      rw [← hstores store, hzero] at hle
      exact Nat.le_zero.mp ((hguarded store).trans hle)
    refine { h with stores := hstores, knownStores := hknown, guarded := hguarded, regions := ?_ }
    intro other hother
    show (Function.update s.regions store _ other).Sound _
      (Function.update s.storeRefs store (s.storeRefs store - 1) other) _
    by_cases hsame : other = store
    · subst hsame
      rw [hnoReaders] at hregion ⊢
      rw [hzero, Function.update_self]
      exact hregion.drop (drops other)
    · rw [Function.update_of_ne hsame, Function.update_of_ne hsame]
      exact h.regions other hother
  · rename_i hleft
    refine { h with stores := hstores, knownStores := hknown, guarded := hguarded, regions := ?_ }
    intro other hother
    show (s.regions other).Sound _
      (Function.update s.storeRefs store (s.storeRefs store - 1) other) _
    by_cases hsame : other = store
    · subst hsame
      exact hregion.of_refs (h.stores.pos_iff.mpr hheld) (Nat.pos_of_ne_zero hleft)
    · rw [Function.update_of_ne hsame]
      exact h.regions other hother

omit h in
theorem dropStores (drops : Nat → Bool) (stores : List Nat)
    (h : Accounted env s snapshots (stores ++ shares) guards)
    (hguarded : ∀ store, guards.count store ≤ shares.count store) :
    Accounted env (stores.foldl (ProtectedState.dropStore drops) s) snapshots shares guards := by
  induction stores generalizing s with
  | nil => exact h
  | cons store stores ih =>
    rw [List.foldl_cons]
    apply ih
    have hmore : ∀ other, guards.count other ≤ (stores ++ shares).count other := by
      intro other
      rw [List.count_append]
      exact (hguarded other).trans (Nat.le_add_left ..)
    exact dropStore h hmore drops

omit h in
theorem dropMap {map : Nat} (h : Accounted env s (map :: snapshots) shares guards)
    (drops : Nat → Bool) : Accounted env (s.dropMap drops map) snapshots shares guards := by
  have hmaps := (h.maps.perm (List.Perm.swap ..)).release
  have hknown : ∀ other ∈ s.current :: snapshots, other < s.mapCount := by
    intro other hother
    apply h.knownMaps
    exact (List.Perm.swap ..).mem_iff.mpr (List.mem_cons_of_mem _ hother)
  unfold ProtectedState.dropMap
  dsimp only
  split
  · -- the last reference: what the version kept alive is now ours to drop
    apply dropStores
    · have hmoved := s.mapStores_perm (h.knownMaps map (List.mem_cons_of_mem _ (List.mem_cons_self ..)))
      have hshares : (s.mapStores ++ shares).Perm
          ((List.range s.mapCount).flatMap (fun other => (Function.update s.maps map ∅ other).stores) ++
            ((s.maps map).stores ++ shares)) := by
        apply (hmoved.append_right shares).trans
        rw [List.append_assoc]
        exact List.perm_append_comm_assoc ..
      refine { h with
        maps := hmaps, knownMaps := hknown, stores := h.stores.perm hshares,
        knownStores := fun store hstore => h.knownStores store (hshares.mem_iff.mpr hstore),
        guarded := ?_ }
      intro store
      rw [List.count_append]
      exact (h.guarded store).trans (Nat.le_add_left ..)
    · exact h.guarded
  · exact { h with maps := hmaps, knownMaps := hknown }

theorem create {fragments : Fragments}
    (hprotect : fragments.region.isSome = env.config.pageProtection) :
    Accounted env (s.create fragments) snapshots (s.storeCount :: shares) guards := by
  have hfresh : s.storeCount ∉ s.mapStores ++ shares :=
    fun hmem => Nat.lt_irrefl _ (h.knownStores _ hmem)
  have hunread : guards.count s.storeCount = 0 := by
    have hnone : shares.count s.storeCount = 0 :=
      List.count_eq_zero.mpr fun hmem => hfresh (List.mem_append_right _ hmem)
    exact Nat.le_zero.mp (hnone ▸ h.guarded s.storeCount)
  refine { h with
    stores := (h.stores.acquire s.storeCount).perm List.perm_middle.symm
    knownStores := ?_
    guarded := fun other => (h.guarded other).trans List.count_le_count_cons
    regions := ?_
    protect := ?_ }
  · intro store hstore
    rcases List.mem_cons.mp (List.perm_middle.mem_iff.mp hstore) with rfl | hstore
    · exact Nat.lt_succ_self _
    · exact Nat.lt_succ_of_lt (h.knownStores store hstore)
  · intro store hstore
    show (Function.update s.regions s.storeCount RegionState.sealed store).Sound _
      (Function.update s.storeRefs s.storeCount (s.storeRefs s.storeCount + 1) store) _
    by_cases hsame : store = s.storeCount
    · subst hsame
      rw [Function.update_self, Function.update_self, hunread]
      exact RegionState.sound_sealed ..
    · rw [Function.update_of_ne hsame, Function.update_of_ne hsame]
      exact h.regions store (Nat.lt_of_le_of_ne (Nat.le_of_lt_succ hstore) hsame)
  · intro store hstore
    show (Function.update s.fragments s.storeCount fragments store).region.isSome = _
    by_cases hsame : store = s.storeCount
    · subst hsame
      rw [Function.update_self]
      exact hprotect
    · rw [Function.update_of_ne hsame]
      exact h.protect store (Nat.lt_of_le_of_ne (Nat.le_of_lt_succ hstore) hsame)

theorem openRegion {store : Nat} {region : RegionState} {protects : Bool}
    (hguarded : ∀ other, (store :: guards).count other ≤ shares.count other)
    (hopen : (s.regions store).open protects = some region) :
    Accounted env (s.setRegion store region) snapshots shares (store :: guards) := by
  refine { h with guarded := hguarded, regions := ?_ }
  intro other hother
  show (Function.update s.regions store region other).Sound _ _ _
  by_cases hsame : other = store
  · subst hsame
    rw [Function.update_self, List.count_cons_self]
    exact (h.regions other hother).open hopen
  · rw [Function.update_of_ne hsame, List.count_cons_of_ne (Ne.symm hsame)]
    exact h.regions other hother

omit h in
theorem closeStore {store : Nat} (h : Accounted env s snapshots shares (store :: guards))
    (protects : Bool) : Accounted env (s.closeStore protects store) snapshots shares guards := by
  refine { h with
    guarded := fun other => List.count_le_count_cons.trans (h.guarded other), regions := ?_ }
  intro other hother
  show (Function.update s.regions store ((s.regions store).close protects) other).Sound _ _
    (s.closeRefused || _)
  have hregion := h.regions other hother
  by_cases hsame : other = store
  · subst hsame
    rw [List.count_cons_self] at hregion
    rw [Function.update_self]
    exact hregion.close protects
  · rw [List.count_cons_of_ne (Ne.symm hsame)] at hregion
    rw [Function.update_of_ne hsame]
    exact hregion.refuse _

theorem shareAll (stores : List Nat) (hstores : ∀ store ∈ stores, store ∈ s.mapStores) :
    Accounted env (stores.foldl ProtectedState.share s) snapshots (stores.reverse ++ shares)
      guards := by
  induction stores generalizing s shares with
  | nil => exact h
  | cons store stores ih =>
    rw [List.foldl_cons, List.reverse_cons, List.append_assoc]
    have hshare := h.share (List.mem_append_left shares (hstores store (List.mem_cons_self ..)))
    exact ih hshare fun other hother => hstores other (List.mem_cons_of_mem _ hother)

omit h in
/-- A new version of the map takes over references; the registry's reference to the old
version passes to the caller. -/
theorem publish {map : ProtectedMap}
    (h : Accounted env s snapshots (map.stores ++ shares) guards)
    (hguarded : ∀ store, guards.count store ≤ shares.count store) :
    Accounted env { s with
        maps := Function.update s.maps s.mapCount map
        mapRefs := Function.update s.mapRefs s.mapCount (s.mapRefs s.mapCount + 1)
        mapCount := s.mapCount + 1
        current := s.mapCount }
      (s.current :: snapshots) shares guards := by
  have hstores : (s.mapStores ++ (map.stores ++ shares)).Perm
      ((List.range (s.mapCount + 1)).flatMap
        (fun other => (Function.update s.maps s.mapCount map other).stores) ++ shares) := by
    have hold : (List.range s.mapCount).flatMap
        (fun other => (Function.update s.maps s.mapCount map other).stores) = s.mapStores := by
      apply List.flatMap_congr
      intro other hother
      rw [Function.update_of_ne (Nat.ne_of_lt (List.mem_range.mp hother))]
    rw [List.range_succ, List.flatMap_append, hold, List.flatMap_singleton, Function.update_self,
      List.append_assoc]
  refine { h with
    maps := h.maps.acquire s.mapCount
    knownMaps := ?_
    stores := h.stores.perm hstores
    knownStores := fun store hstore => h.knownStores store (hstores.mem_iff.mpr hstore)
    guarded := hguarded }
  intro other hother
  rcases List.mem_cons.mp hother with rfl | hother
  · exact Nat.lt_succ_self _
  · exact Nat.lt_succ_of_lt (h.knownMaps other hother)

omit h in
theorem install {handle : KeyId} {edit : ProtectedMap → ProtectedMap} (made : List Nat)
    (h : Accounted env s snapshots (made ++ shares) guards)
    (hguarded : ∀ store, guards.count store ≤ shares.count store)
    (hedit : ∀ map : ProtectedMap,
      (made ++ ProtectedMap.stores (map.erase handle)).Perm (edit map).stores)
    (drops : Nat → Bool) :
    Accounted env (s.install drops handle edit) (s.current :: snapshots) shares guards := by
  obtain ⟨map, hmap⟩ : ∃ map, map = s.maps s.current := ⟨_, rfl⟩
  have hcurrent : ∀ store ∈ map.stores, store ∈ s.mapStores := by
    intro store hstore
    subst hmap
    exact List.mem_flatMap.mpr
      ⟨s.current, List.mem_range.mpr (h.knownMaps _ (List.mem_cons_self ..)), hstore⟩
  have hclone := h.shareAll map.stores hcurrent
  -- what the caller holds once the clone has been edited
  have hedited : ∀ after : ProtectedState, after.current = s.current →
      Accounted env after snapshots (ProtectedMap.stores (map.erase handle) ++ (made ++ shares))
        guards →
      Accounted env { after with
          maps := Function.update after.maps after.mapCount (edit map)
          mapRefs := Function.update after.mapRefs after.mapCount
            (after.mapRefs after.mapCount + 1)
          mapCount := after.mapCount + 1
          current := after.mapCount }
        (s.current :: snapshots) shares guards := by
    intro after hafter hheld
    rw [← hafter]
    refine publish (hheld.perm (List.Perm.refl _) ?_ (List.Perm.refl _)) hguarded
    rw [← List.append_assoc]
    exact (List.perm_append_comm.trans (hedit map)).append_right shares
  unfold ProtectedState.install
  rw [← hmap]
  dsimp only
  cases hlookup : map.lookup handle with
  | none =>
    apply hedited _ (current_shareAll ..)
    refine hclone.perm (List.Perm.refl _) ?_ (List.Perm.refl _)
    rw [ProtectedMap.stores_erase_of_none hlookup]
    exact (List.reverse_perm _).append_right _
  | some entry =>
    apply hedited _ ((current_dropStore ..).trans (current_shareAll ..))
    refine dropStore (hclone.perm (List.Perm.refl _) ?_ (List.Perm.refl _)) ?_ drops
    · exact ((List.reverse_perm _).trans (ProtectedMap.stores_perm hlookup)).append_right _
    · intro store
      rw [List.count_append, List.count_append]
      have := hguarded store
      omega

end Accounted

def OnHeap (strategy : FragmentStrategy) : Prop :=
  ∀ key rng fragments rng', strategy.fragment key rng = .ok (fragments, rng') →
    fragments.region = none

theorem onHeap_builtin {strategy : FragmentStrategy} (h : Builtin strategy) : OnHeap strategy := by
  intro key rng fragments rng' hfragment
  cases h with
  | standard f =>
    simp only [StandardFragmenter.strategy, StandardFragmenter.fragment, bind_eq_ok] at hfragment
    obtain ⟨-, -, -, -, sizes, -, pairs, -, decoys, -, hfragment⟩ := hfragment
    split at hfragment
    · cases hfragment
    · simp only [bind_eq_ok] at hfragment
      obtain ⟨entries, -, hfragment⟩ := hfragment
      cases hfragment
      rfl
  | random f =>
    simp only [RandomFragmenter.strategy, RandomFragmenter.fragment, bind_eq_ok] at hfragment
    obtain ⟨-, -, -, -, hfragment⟩ := hfragment
    split at hfragment
    · cases hfragment
    · simp only [bind_eq_ok] at hfragment
      obtain ⟨groups, -, hfragment⟩ := hfragment
      cases hfragment
      rfl
  | interleaved f =>
    simp only [InterleavedFragmenter.strategy, InterleavedFragmenter.fragment, bind_eq_ok]
      at hfragment
    obtain ⟨-, -, -, -, -, -, hfragment⟩ := hfragment
    split at hfragment
    · cases hfragment
    · simp only [bind_eq_ok] at hfragment
      obtain ⟨padding, -, pool, -, hfragment⟩ := hfragment
      cases hfragment
      rfl
  | layered f =>
    simp only [LayeredFragmenter.strategy, LayeredFragmenter.fragment, bind_eq_ok] at hfragment
    obtain ⟨pick, -, sub, -, plain, -, -, -, hfragment⟩ := hfragment
    cases hfragment
    rfl

theorem region_fragmentForRegistry (hheap : OnHeap env.fragmenter) {os : OsAnswers} {key : Bytes}
    {rng : Rng} {fragments : Fragments}
    (h : fragmentForRegistry env os key rng = .ok fragments) :
    fragments.region.isSome = env.config.pageProtection := by
  simp only [fragmentForRegistry, bind_eq_ok, Prod.exists] at h
  obtain ⟨plain, rng', hpipeline, hregistry⟩ := h
  cases hprotection : env.config.pageProtection with
  | true =>
    rw [if_pos hprotection] at hregistry
    unfold Fragments.intoProtected at hregistry
    simp only [bind_eq_ok] at hregistry
    obtain ⟨-, -, -, -, -, -, hresult⟩ := hregistry
    cases hresult
    rfl
  | false =>
    rw [if_neg (by rw [hprotection]; decide)] at hregistry
    cases hregistry
    simp only [fragmentPipeline, bind_eq_ok] at hpipeline
    obtain ⟨working, -, hfragment⟩ := hpipeline
    rw [hheap _ _ _ _ hfragment]
    rfl

theorem Accounted.advance {answers : ProtectAnswers} {request : ProtectedRequest}
    {phase phase' : Phase} {s' : ProtectedState} (hheap : OnHeap env.fragmenter)
    (h : Accounted env s (phase.snapshots ++ snapshots) (phase.shares ++ shares)
      (phase.guards ++ guards))
    (hguarded : ∀ store, guards.count store ≤ shares.count store)
    (hstep : s.advance env answers request phase = some (s', phase')) :
    Accounted env s' (phase'.snapshots ++ snapshots) (phase'.shares ++ shares)
      (phase'.guards ++ guards) := by
  have hload : (if answers.lockedOut then some (s, .returned (fail .lockedOut))
      else some (s.load, .looked s.current)) = some (s', phase') →
      Accounted env s snapshots shares guards →
      Accounted env s' (phase'.snapshots ++ snapshots) (phase'.shares ++ shares)
        (phase'.guards ++ guards) := by
    intro hstep h
    split at hstep
    · cases hstep
      exact h
    · cases hstep
      exact h.load
  have hmake : ∀ key rng, (match fragmentForRegistry env answers.os key rng with
      | .error exit => some (s, .returned (.error exit))
      | .ok fragments => some (s.create fragments, .made s.storeCount)) = some (s', phase') →
      Accounted env s snapshots shares guards →
      Accounted env s' (phase'.snapshots ++ snapshots) (phase'.shares ++ shares)
        (phase'.guards ++ guards) := by
    intro key rng hstep h
    split at hstep
    · cases hstep
      exact h
    · rename_i fragments hfragments
      cases hstep
      exact h.create (region_fragmentForRegistry hheap hfragments)
  unfold ProtectedState.advance at hstep
  split at hstep
  · -- `unregister`
    split at hstep
    · cases hstep
      exact h
    · cases hstep
      exact install [] h hguarded (fun map => List.Perm.refl _) answers.drops
  · exact hload hstep h
  · exact hload hstep h
  · exact hload hstep h
  · -- `with_key` looks for the entry
    split at hstep
    · cases hstep
      exact dropMap h answers.drops
    · rename_i hlookup
      split at hstep
      · cases hstep
        exact dropMap h answers.drops
      · cases hstep
        apply h.share
        exact List.mem_append_left _
          (h.mem_mapStores (List.mem_cons_of_mem _ (List.mem_cons_self ..)) hlookup)
  · -- `rotate` looks for the entry
    split at hstep
    · cases hstep
      exact dropMap h answers.drops
    · split at hstep <;> cases hstep <;> exact dropMap h answers.drops
  · -- `register` looks for the name
    split at hstep <;> cases hstep <;> exact dropMap h answers.drops
  · cases hstep
    exact dropMap h answers.drops
  · rename_i store
    -- `reassemble` opens the region
    unfold openStore at hstep
    split at hstep
    · split at hstep
      · rename_i region hopen
        cases hstep
        refine h.openRegion ?_ hopen
        intro other
        show List.count other (store :: guards) ≤ List.count other (store :: shares)
        rw [List.count_cons, List.count_cons]
        exact Nat.add_le_add_right (hguarded other) _
      · cases hstep
        exact h
    · cases hstep
      exact h
  · rename_i store guard
    cases hstep
    cases guard with
    | true => exact closeStore h answers.protects
    | false => exact h
  · cases hstep
    exact dropStore h hguarded answers.drops
  · exact hmake _ _ hstep h
  · exact hmake _ _ hstep h
  · -- `register` installs the new entry
    rename_i store
    split at hstep
    · cases hstep
      exact dropStore h hguarded answers.drops
    · cases hstep
      exact install [store] h hguarded (fun map => List.Perm.refl _) answers.drops
  · -- `rotate` replaces the entry
    rename_i store
    split at hstep
    · cases hstep
      exact dropStore h hguarded answers.drops
    · cases hstep
      exact install [store] h hguarded (fun map => List.Perm.refl _) answers.drops
  · cases hstep
    exact dropMap h answers.drops
  · cases hstep

end ProtectedState

/-! ### Runs -/

namespace Phase

theorem guards_count_le (phase : Phase) (store : Nat) :
    phase.guards.count store ≤ phase.shares.count store := by
  cases phase with
  | reading other guard =>
    cases guard with
    | true => exact Nat.le_refl _
    | false => exact Nat.zero_le _
  | _ => exact Nat.zero_le _

end Phase

namespace ProtectedVault

variable {env : Environment} {s s' : ProtectedVault}

def snapshots (calls : List ProtectedCall) : List Nat := calls.flatMap fun call => call.phase.snapshots

def shares (calls : List ProtectedCall) : List Nat := calls.flatMap fun call => call.phase.shares

def guards (calls : List ProtectedCall) : List Nat := calls.flatMap fun call => call.phase.guards

theorem guards_count_le (calls : List ProtectedCall) (store : Nat) :
    (guards calls).count store ≤ (shares calls).count store := by
  induction calls with
  | nil => exact Nat.le_refl _
  | cons call calls ih =>
    unfold guards shares
    rw [List.flatMap_cons, List.flatMap_cons, List.count_append, List.count_append]
    exact Nat.add_le_add (call.phase.guards_count_le store) ih

structure Sound (env : Environment) (s : ProtectedVault) : Prop where
  accounted : s.state.Accounted env (snapshots s.calls) (shares s.calls) (guards s.calls)
  guarded : ∀ call ∈ s.calls, ∀ store, call.phase = .reading store false →
    env.config.pageProtection = false

theorem sound_new (env : Environment) : Sound env new :=
  ⟨ProtectedState.accounted_new env, fun call hcall => by cases hcall⟩

theorem reading_of_advance {answers : ProtectAnswers} {request : ProtectedRequest} {phase : Phase}
    {state state' : ProtectedState} {store : Nat} {guard : Bool}
    (hstep : state.advance env answers request phase = some (state', .reading store guard)) :
    phase = .shared store ∧
      state.openStore env answers.protects store = (state', .reading store guard) := by
  unfold ProtectedState.advance at hstep
  split at hstep
  case h_9 _ other =>
    have hopen := Option.some.inj hstep
    have hsame : other = store := by
      unfold ProtectedState.openStore at hopen
      split at hopen
      · split at hopen
        · cases hopen
          rfl
        · cases hopen
      · cases hopen
        rfl
    subst hsame
    exact ⟨rfl, hopen⟩
  all_goals first
    | cases hstep
    | (split at hstep <;> first | cases hstep | (split at hstep <;> cases hstep))

theorem unguarded_of_advance {answers : ProtectAnswers} {request : ProtectedRequest}
    {phase : Phase} {state state' : ProtectedState} {store : Nat}
    (hprotect : ∀ store ∈ phase.shares,
      (state.fragments store).region.isSome = env.config.pageProtection)
    (hstep : state.advance env answers request phase = some (state', .reading store false)) :
    env.config.pageProtection = false := by
  obtain ⟨rfl, hopen⟩ := reading_of_advance hstep
  have hregion := hprotect store (List.mem_singleton_self store)
  unfold ProtectedState.openStore at hopen
  split at hopen
  · split at hopen <;> cases hopen
  · rename_i hplain
    rw [hregion] at hplain
    simpa using hplain

theorem sound_step {action : ProtectedAction} (hheap : ProtectedState.OnHeap env.fragmenter)
    (h : Sound env s) (hstep : s.step env action = some s') : Sound env s' := by
  cases action with
  | invoke request =>
    cases hstep
    constructor
    · have hnone : ∀ f : Phase → List Nat, f .start = [] →
          (s.calls ++ [(⟨request, .start⟩ : ProtectedCall)]).flatMap (fun call => f call.phase) =
            s.calls.flatMap fun call => f call.phase := by
        intro f hf
        rw [List.flatMap_append, List.flatMap_singleton, hf, List.append_nil]
      unfold snapshots shares guards
      rw [hnone Phase.snapshots rfl, hnone Phase.shares rfl, hnone Phase.guards rfl]
      exact h.accounted
    · intro call hcall store hphase
      rcases List.mem_append.mp hcall with hcall | hcall
      · exact h.guarded call hcall store hphase
      · rw [List.mem_singleton.mp hcall] at hphase
        cases hphase
  | advance caller answers =>
    simp only [step] at hstep
    cases hcaller : s.calls[caller]? with
    | none =>
      rw [hcaller] at hstep
      cases hstep
    | some call =>
      rw [hcaller] at hstep
      obtain ⟨⟨state, phase⟩, hadvance, rfl⟩ := Option.map_eq_some_iff.mp hstep
      have hheld := h.accounted.perm
        (perm_flatMap_getElem? hcaller fun call => call.phase.snapshots)
        (perm_flatMap_getElem? hcaller fun call => call.phase.shares)
        (perm_flatMap_getElem? hcaller fun call => call.phase.guards)
      have hafter := hheld.advance hheap (guards_count_le (s.calls.eraseIdx caller)) hadvance
      have hset := fun f : Phase → List Nat =>
        (perm_flatMap_set hcaller (fun call => f call.phase) ⟨call.request, phase⟩).symm
      constructor
      · exact hafter.perm (hset Phase.snapshots) (hset Phase.shares) (hset Phase.guards)
      · intro other hother store hphase
        rcases List.mem_or_eq_of_mem_set hother with hother | rfl
        · exact h.guarded other hother store hphase
        · dsimp only at hphase
          subst hphase
          refine unguarded_of_advance ?_ hadvance
          intro store hstore
          apply hheld.protect
          exact hheld.knownStores store
            (List.mem_append_right _ (List.mem_append_left _ hstore))

theorem sound_run {actions : List ProtectedAction} (hheap : ProtectedState.OnHeap env.fragmenter)
    (hrun : run env actions = some s) : Sound env s :=
  Interleaving.foldlM_invariant (fun _ _ _ => sound_step hheap) (sound_new env) hrun

theorem readKey_refused {α : Type} {fragments : Fragments} (hprotect : env.config.pageProtection = true)
    (hregion : fragments.region.isSome = true) (scratch : Bytes) (f : Bytes → α) :
    (readKey env fragments false scratch f).1 =
      fail (.memoryLock "could not make the key's pages readable") := by
  obtain ⟨region, hregion⟩ := Option.isSome_iff_exists.mp hregion
  simp [readKey, reassemble, Fragments.open, hprotect, hregion, fail]

def IsRegion (s : ProtectedVault) (store : Nat) : Prop :=
  store < s.state.storeCount ∧ (s.state.fragments store).region.isSome = true

/-- What page protection promises. -/
structure PagesProtected (env : Environment) (s : ProtectedVault) : Prop where
  /-- `readers` is the number of live guards. -/
  counted : ∀ store, IsRegion s store →
    (s.state.regions store).readers = (guards s.calls).count store
  readable : ∀ store, IsRegion s store → 0 < (s.state.regions store).readers →
    (s.state.regions store).access = .read
  /-- Whoever reads a chunk or the layout of a protected key can. -/
  reads : ∀ call ∈ s.calls, ∀ store guard, call.phase = .reading store guard →
    IsRegion s store →
      (s.state.regions store).mapped = true ∧ (s.state.regions store).access = .read
  /-- A failed `open` changes nothing, and the call returns without its callback, like
  `readKey` when it is told of the failure. -/
  refused : ∀ caller handle scratch store answers, IsRegion s store →
    s.calls[caller]? = some ⟨.withKey handle scratch, .shared store⟩ →
    (s.state.regions store).open answers.protects = none →
      s.step env (.advance caller answers) = some ⟨s.state, s.calls.set caller
        ⟨.withKey handle scratch,
          .finished store (fail (.memoryLock "could not make the key's pages readable"))⟩⟩ ∧
      (readKey env (s.state.fragments store) false scratch ProtectedResult.bytes).1 =
        fail (.memoryLock "could not make the key's pages readable")
  returns : ∀ caller handle scratch store outcome answers,
    s.calls[caller]? = some ⟨.withKey handle scratch, .finished store outcome⟩ →
      s.step env (.advance caller answers) = some ⟨s.state.dropStore answers.drops store,
        s.calls.set caller ⟨.withKey handle scratch, .returned outcome⟩⟩
  /-- Without a refusal, a region that nobody reads is inaccessible. -/
  closed : s.state.closeRefused = false → ∀ store, IsRegion s store →
    (s.state.regions store).mapped = true → (s.state.regions store).readers = 0 →
      (s.state.regions store).access = .none
  /-- A region that is gone is in no version of the map and in no call's hands. -/
  unmapped : ∀ store, IsRegion s store → (s.state.regions store).mapped = false →
    store ∉ s.state.mapStores ∧ store ∉ shares s.calls ∧ store ∉ guards s.calls
  registry : ∀ handle entry, (s.state.maps s.state.current).lookup handle = some entry →
    (s.state.fragments entry.store).region.isSome = env.config.pageProtection

/-- The page-protection protocol, in every interleaving of readers and writers and
whatever the operating system answers. -/
theorem pages_protected {actions : List ProtectedAction}
    (hheap : ProtectedState.OnHeap env.fragmenter) (hrun : run env actions = some s) :
    PagesProtected env s := by
  have h := sound_run hheap hrun
  have hregions := h.accounted.regions
  have hprotection : ∀ store, IsRegion s store → env.config.pageProtection = true := by
    intro store hstore
    rw [← h.accounted.protect store hstore.1, hstore.2]
  have hread : ∀ call ∈ s.calls, ∀ store guard, call.phase = .reading store guard →
      IsRegion s store → store ∈ shares s.calls ∧ store ∈ guards s.calls := by
    intro call hcall store guard hphase hstore
    cases guard with
    | true =>
      constructor <;> apply List.mem_flatMap.mpr <;> refine ⟨call, hcall, ?_⟩ <;> rw [hphase] <;>
        exact List.mem_singleton_self store
    | false =>
      have hplain := h.guarded call hcall store hphase
      rw [hprotection store hstore] at hplain
      cases hplain
  refine ⟨?_, ?_, ?_, ?_, ?_, ?_, ?_, ?_⟩
  · intro store hstore
    exact (hregions store hstore.1).count
  · intro store hstore hpos
    have hregion := hregions store hstore.1
    exact hregion.readable (hregion.count ▸ hpos)
  · intro call hcall store guard hphase hstore
    obtain ⟨hshared, hguarded⟩ := hread call hcall store guard hphase hstore
    have hregion := hregions store hstore.1
    exact ⟨hregion.mapped.mpr
        (h.accounted.stores.pos_iff.mpr (List.mem_append_right _ hshared)),
      hregion.readable (List.count_pos_iff.mpr hguarded)⟩
  · intro caller handle scratch store answers hstore hcall hopen
    refine ⟨?_, readKey_refused (hprotection store hstore) hstore.2 scratch _⟩
    simp only [step, hcall, ProtectedState.advance, ProtectedState.openStore,
      hprotection store hstore, hstore.2, hopen, and_self, if_true, Option.map_some]
  · intro caller handle scratch store outcome answers hcall
    simp only [step, hcall, ProtectedState.advance, Option.map_some]
  · intro hrefused store hstore hmapped hreaders
    have hregion := hregions store hstore.1
    exact hregion.closed hrefused (hregion.mapped.mp hmapped) (hregion.count ▸ hreaders)
  · intro store hstore hunmapped
    have hunreferenced : store ∉ s.state.mapStores ++ shares s.calls := by
      intro hmem
      have hmapped := (hregions store hstore.1).mapped.mpr (h.accounted.stores.pos_iff.mpr hmem)
      rw [hunmapped] at hmapped
      cases hmapped
    refine ⟨fun hmem => hunreferenced (List.mem_append_left _ hmem),
      fun hmem => hunreferenced (List.mem_append_right _ hmem), ?_⟩
    intro hguarded
    have hle := guards_count_le s.calls store
    have hpos := List.count_pos_iff.mpr hguarded
    exact hunreferenced (List.mem_append_right _ (List.count_pos_iff.mp (Nat.lt_of_lt_of_le hpos hle)))
  · intro handle entry hlookup
    apply h.accounted.protect
    apply h.accounted.knownStores
    exact List.mem_append_left _ (h.accounted.mem_mapStores (List.mem_cons_self ..) hlookup)

end ProtectedVault

/-- No lockouts, and a system that allows what it is asked; `protects` decides about
`open` and about the last guard. -/
def allowing (protects : Bool) : ProtectAnswers :=
  ⟨false, false, ⟨true, true, true⟩, protects, fun _ => true, 1⟩

/-- A reader holds the region of a key open while the key is rotated; the old region goes
away when it is done. The next reader is not allowed to open the new region. -/
def rotateWhileOpen : List ProtectedAction :=
  [.invoke (.register "k" [1, 2, 3] (.constant 5))] ++ List.replicate 5 (.advance 0 (allowing true)) ++
  [.invoke (.withKey 1 [])] ++ List.replicate 4 (.advance 1 (allowing true)) ++
  [.invoke (.rotate 1 [9, 8] (.constant 6))] ++ List.replicate 5 (.advance 2 (allowing true)) ++
  List.replicate 2 (.advance 1 (allowing true)) ++
  [.invoke (.withKey 1 [])] ++ List.replicate 5 (.advance 3 (allowing false))

def ProtectedVault.result? (s : ProtectedVault) (caller : Nat) : Option (Result ProtectedResult) :=
  match s.calls[caller]? with
  | some ⟨_, .returned outcome⟩ => some outcome
  | _ => none

theorem pages_protected_rotateWhileOpen : ∃ s : ProtectedVault,
    s.result? 1 = some (.ok (.bytes [1, 2, 3])) ∧
    s.result? 3 = some (fail (.memoryLock "could not make the key's pages readable")) ∧
    s.state.regions 0 = ⟨.readWrite, 0, false⟩ ∧ s.state.regions 1 = ⟨.none, 0, true⟩ ∧
    s.PagesProtected (Environment.plain { pageProtection := true }) := by
  have hrun : (ProtectedVault.run (Environment.plain { pageProtection := true })
      rotateWhileOpen).map (fun s => (s.result? 1, s.result? 3, s.state.regions 0,
        s.state.regions 1)) = some (some (.ok (.bytes [1, 2, 3])),
          some (fail (.memoryLock "could not make the key's pages readable")),
          ⟨.readWrite, 0, false⟩, ⟨.none, 0, true⟩) := by
    decide +kernel
  obtain ⟨s, hs, hfacts⟩ := Option.map_eq_some_iff.mp hrun
  simp only [Prod.mk.injEq] at hfacts
  obtain ⟨hread, hrefused, hold, hnew⟩ := hfacts
  exact ⟨s, hread, hrefused, hold, hnew,
    ProtectedVault.pages_protected (ProtectedState.onHeap_builtin (.standard _)) hs⟩

end KeyVault
