import KeyVault.BuiltVault
import KeyVault.KeyBlind
import KeyVault.VaultFootprint

/-! Key bytes are not observable. Two runs of one vault under one schedule, whose
requests differ only in the bytes of keys of the same lengths, stay in step: every
call ends alike on both sides, with the same handle or the same error, and the
lockouts, the failures, the audit trail, the monitor's events and the metadata are the
same. Only the bytes that `with_key`, `fragment` and `defragment` hand out differ. -/
namespace KeyVault

open Interleaving Lockstep Atomic
open Interleaving.Program (InStep inStep_bind inStep_self inStep_shared)

/-! ### Key material -/

section Material

variable {env : Environment} {key key' : Bytes} {f g : Fragments}

theorem agrees_normalize (env : Environment) (opens : Bool) (h : SameLength key key') :
    Agrees SameLength (normalize env opens key) (normalize env opens key') := by
  unfold normalize
  cases env.normalizer with
  | off => exact h
  | plain =>
    show List.length _ = List.length _
    rw [Vector.length_toList, Vector.length_toList]
  | unavailable reason => exact rfl
  | keyed secret =>
    dsimp only
    cases secret.read opens with
    | error exit => exact rfl
    | ok bytes =>
      dsimp only
      split
      · show List.length _ = List.length _
        rw [Vector.length_toList, Vector.length_toList]
      · exact rfl

theorem agrees_fragmentPipeline (hblind : env.fragmenter.Blind) (os : OsAnswers)
    (h : SameLength key key') (rng : Rng) :
    Agrees (Drawn Fragments.Alike) (fragmentPipeline env os key rng)
      (fragmentPipeline env os key' rng) := by
  unfold fragmentPipeline
  apply (agrees_normalize env os.opens h).bind
  intro working working' hworking
  apply hblind.fragment
  cases env.codex with
  | none => exact hworking
  | some codex => simpa [SameLength, codexApply] using hworking

theorem Fragments.Alike.sizes (h : f.Alike g) :
    f.chunkBytes.map List.length = g.chunkBytes.map List.length := by
  have hchunks := h.chunks
  generalize f.chunkBytes = chunks at hchunks ⊢
  generalize g.chunkBytes = chunks' at hchunks ⊢
  induction hchunks with
  | nil => rfl
  | cons hchunk _ ih => rw [List.map_cons, List.map_cons, hchunk, ih]

theorem agrees_intoProtected (h : f.Alike g) (os : OsAnswers) :
    Agrees Fragments.Alike (f.intoProtected os) (g.intoProtected os) := by
  have hends : Agrees (fun f' g' : Fragments => f'.region.isSome = g'.region.isSome)
      (f.intoProtected os) (g.intoProtected os) := by
    unfold Fragments.intoProtected
    dsimp only
    rw [h.sizes, h.layout]
    apply agrees_bind
    intro _ _
    apply agrees_bind
    intro _ _
    apply agrees_bind
    intro _ _
    exact rfl
  obtain ⟨exit, hf, hg⟩ | ⟨f', g', hf, hg, hguarded⟩ := hends.cases
  · rw [hf, hg]
    exact rfl
  · rw [hf, hg]
    obtain ⟨hchunks, hlayout, htotal⟩ := Fragments.intoProtected_sameView hf
    obtain ⟨hchunks', hlayout', htotal'⟩ := Fragments.intoProtected_sameView hg
    exact ⟨hchunks ▸ hchunks' ▸ h.chunks, hlayout ▸ hlayout' ▸ h.layout,
      htotal ▸ htotal' ▸ h.totalLen, hguarded⟩

theorem agrees_fragmentForRegistry (hblind : env.fragmenter.Blind) (os : OsAnswers)
    (h : SameLength key key') (rng : Rng) :
    Agrees Fragments.Alike (fragmentForRegistry env os key rng)
      (fragmentForRegistry env os key' rng) := by
  unfold fragmentForRegistry
  apply (agrees_fragmentPipeline hblind os h rng).bind
  rintro ⟨made, rng⟩ ⟨made', _⟩ ⟨hmade, rfl⟩
  dsimp only at hmade ⊢
  split
  · exact agrees_intoProtected hmade os
  · exact hmade

theorem open_alike (h : f.Alike g) (opens : Bool) : f.open opens = g.open opens := by
  have hguarded := h.guarded
  unfold Fragments.open
  cases hf : f.region <;> cases hg : g.region <;> rw [hf, hg] at hguarded <;>
    first | rfl | cases hguarded

theorem tagged_reassemble (hblind : env.fragmenter.Blind) (h : f.Alike g) (opens : Bool)
    {out out' : Bytes} (hout : SameLength out out') :
    Tagged (reassemble env f opens out) (reassemble env g opens out') := by
  unfold reassemble
  rw [open_alike h]
  generalize (if env.config.pageProtection then g.open opens else .ok ()) = opened
  cases opened with
  | error exit => exact ⟨rfl, hout⟩
  | ok granted =>
    obtain ⟨hend, hlength⟩ := hblind.defragmentInto h hout
    dsimp only
    generalize env.fragmenter.defragmentInto f out = filled at hend hlength ⊢
    generalize env.fragmenter.defragmentInto g out' = filled' at hend hlength ⊢
    obtain ⟨result, out⟩ := filled
    obtain ⟨_, out'⟩ := filled'
    cases hend
    cases result with
    | error exit => exact ⟨rfl, hlength⟩
    | ok _ =>
      cases env.codex with
      | none => exact ⟨rfl, hlength⟩
      | some codex =>
        refine ⟨rfl, ?_⟩
        simpa [SameLength, codexDecodeInPlace] using hlength

theorem agrees_readKey (hblind : env.fragmenter.Blind) (h : f.Alike g) (opens : Bool)
    (scratch scratch' : Bytes) :
    Agrees SameLength (readKey env f opens scratch id).1 (readKey env g opens scratch' id).1 := by
  have htaken : SameLength ((ensureLen scratch f.totalLen).take f.totalLen)
      ((ensureLen scratch' g.totalLen).take g.totalLen) := by
    rw [SameLength, length_take_ensureLen, length_take_ensureLen, h.totalLen]
  obtain ⟨hend, hlength⟩ := tagged_reassemble hblind h opens htaken
  unfold readKey
  dsimp only
  generalize reassemble env f opens _ = filled at hend hlength ⊢
  generalize reassemble env g opens _ = filled' at hend hlength ⊢
  obtain ⟨result, out⟩ := filled
  obtain ⟨_, out'⟩ := filled'
  cases hend
  cases result with
  | error exit => exact rfl
  | ok _ => exact hlength

end Material

/-! ### The shared state -/

structure KeyEntry.Alike (entry entry' : KeyEntry) : Prop where
  name : entry.name = entry'.name
  fragments : entry.fragments.Alike entry'.fragments
  metadata : entry.metadata = entry'.metadata

def KeyMap.Alike (keys keys' : KeyMap) : Prop :=
  ∀ id, Option.Rel KeyEntry.Alike (keys.lookup id) (keys'.lookup id)

/-- The states differ at most in the bytes of the stored chunks. -/
def Vault.KeysApart (v v' : Vault) : Prop :=
  ∃ keys', v.keys.Alike keys' ∧ v' = { v with keys := keys' }

inductive VaultOp.Alike : VaultOp → VaultOp → Prop
  | same (op : VaultOp) : Alike op op
  | insert (id : KeyId) {entry entry' : KeyEntry} (h : entry.Alike entry') :
      Alike (.insertKey id entry) (.insertKey id entry')
  | replace (id : KeyId) {f g : Fragments} (h : f.Alike g) (metadata : KeyMetadata) :
      Alike (.replaceKey id f metadata) (.replaceKey id g metadata)

inductive VaultEvent.Alike : VaultEvent → VaultEvent → Prop
  | same {op : VaultOp} (hop : op ≠ .loadKeys) (ret : op.Ret) :
      Alike (happened op ret) (happened op ret)
  | load {keys keys' : KeyMap} (h : keys.Alike keys') :
      Alike (happened .loadKeys keys) (happened .loadKeys keys')
  | insert (id : KeyId) {entry entry' : KeyEntry} (h : entry.Alike entry') (ret : Bool) :
      Alike (happened (.insertKey id entry) ret) (happened (.insertKey id entry') ret)
  | replace (id : KeyId) {f g : Fragments} (h : f.Alike g) (metadata : KeyMetadata)
      (ret : Option String) :
      Alike (happened (.replaceKey id f metadata) ret) (happened (.replaceKey id g metadata) ret)

def vaultLikeness : Likeness vaultSignature := ⟨VaultOp.Alike, VaultEvent.Alike⟩

theorem open_of_ne_loadKeys {op : VaultOp} (hop : op ≠ .loadKeys) : vaultLikeness.Open op := by
  refine ⟨.same op, fun ret ret' halike => ?_⟩
  cases halike with
  | same => rfl
  | load => exact absurd rfl hop
  | insert => rfl
  | replace => rfl

section KeyMap

variable {keys keys' : KeyMap}

theorem KeyMap.Alike.named (h : keys.Alike keys') {name : String}
    (hname : (registryOf keys).Named name) : (registryOf keys').Named name := by
  obtain ⟨id, entry, hlookup, hentry⟩ := hname
  have hrel := h id
  unfold registryOf at hlookup
  rw [hlookup] at hrel
  generalize hlookup' : keys'.lookup id = found at hrel
  cases hrel with
  | some halike => exact ⟨id, _, hlookup', halike.name ▸ hentry⟩

theorem KeyEntry.Alike.symm {entry entry' : KeyEntry} (h : entry.Alike entry') :
    entry'.Alike entry where
  name := h.name.symm
  fragments := ⟨h.fragments.chunks.flip.imp fun _ _ => Eq.symm, h.fragments.layout.symm,
    h.fragments.totalLen.symm, h.fragments.guarded.symm⟩
  metadata := h.metadata.symm

theorem KeyMap.Alike.symm (h : keys.Alike keys') : keys'.Alike keys := by
  intro id
  have hrel := h id
  generalize keys.lookup id = found at hrel ⊢
  generalize keys'.lookup id = found' at hrel ⊢
  cases hrel with
  | none => exact .none
  | some hentry => exact .some hentry.symm

theorem KeyMap.Alike.hasName (h : keys.Alike keys') (name : String) :
    keys.hasName name = keys'.hasName name := by
  rw [Bool.eq_iff_iff, ← named_registryOf, ← named_registryOf]
  exact ⟨h.named, h.symm.named⟩

theorem KeyMap.Alike.insert (h : keys.Alike keys') (id : KeyId) {entry entry' : KeyEntry}
    (hentry : entry.Alike entry') : KeyMap.Alike (keys.insert id entry) (keys'.insert id entry') := by
  intro other
  by_cases hsame : other = id
  · rw [hsame, AList.lookup_insert, AList.lookup_insert]
    exact .some hentry
  · rw [AList.lookup_insert_ne hsame, AList.lookup_insert_ne hsame]
    exact h other

theorem KeyMap.Alike.erase (h : keys.Alike keys') (id : KeyId) :
    KeyMap.Alike (keys.erase id) (keys'.erase id) := by
  intro other
  by_cases hsame : other = id
  · rw [hsame, AList.lookup_erase, AList.lookup_erase]
    exact .none
  · rw [AList.lookup_erase_ne hsame, AList.lookup_erase_ne hsame]
    exact h other

end KeyMap

def VaultOp.looksAtKeys : VaultOp → Bool
  | .loadKeys | .insertKey _ _ | .removeKey _ | .replaceKey _ _ _ => true
  | _ => false

theorem perform_with_keys {env : Environment} {op : VaultOp} (hop : op.looksAtKeys = false) (v : Vault)
    (keys : KeyMap) : Vault.perform env op { v with keys := keys } =
      (Vault.perform env op v).map fun out => (out.1, { out.2 with keys := keys }) := by
  cases op with
  | loadKeys | insertKey | removeKey | replaceKey => cases hop
  | lockKey name deadline =>
    show Vault.lockKey env { v with keys := keys } name deadline = (v.lockKey env name deadline).map _
    unfold Vault.lockKey
    dsimp only
    split
    · rfl
    · split <;> rfl
  | keyLockedSlow name =>
    show some (Vault.keyLockedSlow env { v with keys := keys } name) =
      some ((v.keyLockedSlow env name).1, { (v.keyLockedSlow env name).2 with keys := keys })
    unfold Vault.keyLockedSlow
    dsimp only
    cases v.keyLocks.lookup name with
    | none => rfl
    | some deadline =>
      cases deadline with
      | none => rfl
      | some stop =>
        dsimp only
        split <;> rfl
  | attemptMaster verifier attempt opens =>
    show some (Vault.attemptMaster env { v with keys := keys } verifier attempt opens) =
      some ((v.attemptMaster env verifier attempt opens).1,
        { (v.attemptMaster env verifier attempt opens).2 with keys := keys })
    unfold Vault.attemptMaster
    dsimp only
    split
    · rfl
    · cases verifier with
      | unavailable reason => rfl
      | ready secret =>
        dsimp only
        cases secret.read opens with
        | error exit => rfl
        | ok stored =>
          dsimp only
          split <;> rfl
  | _ => rfl

def Answered (op op' : VaultOp) (out : op.Ret × Vault) (out' : op'.Ret × Vault) : Prop :=
  VaultEvent.Alike (happened op out.1) (happened op' out'.1) ∧ out.2.KeysApart out'.2

section Writers

variable {env : Environment} {v v' : Vault}

theorem insertKey_alike (hstate : v.KeysApart v') (id : KeyId) {entry entry' : KeyEntry}
    (hentry : entry.Alike entry') :
    Answered (.insertKey id entry) (.insertKey id entry') (v.insertKey id entry)
      (v'.insertKey id entry') := by
  obtain ⟨keys', hkeys, rfl⟩ := hstate
  have hname : KeyMap.hasName keys' entry'.name = v.keys.hasName entry.name := by
    rw [hkeys.hasName, hentry.name]
  unfold Vault.insertKey Answered
  dsimp only
  rw [hname]
  split
  · exact ⟨.insert id hentry _, keys', hkeys, rfl⟩
  · exact ⟨.insert id hentry _, _, hkeys.insert id hentry, rfl⟩

theorem removeKey_alike (hstate : v.KeysApart v') (id : KeyId) :
    Answered (.removeKey id) (.removeKey id) (v.removeKey id) (v'.removeKey id) := by
  obtain ⟨keys', hkeys, rfl⟩ := hstate
  have hfound := hkeys id
  unfold Vault.removeKey Answered
  dsimp only
  generalize v.keys.lookup id = found at hfound ⊢
  generalize keys'.lookup id = found' at hfound ⊢
  cases hfound with
  | none => exact ⟨@VaultEvent.Alike.same (.removeKey id) nofun _, keys', hkeys, rfl⟩
  | some hentry =>
    dsimp only
    rw [hentry.name]
    exact ⟨@VaultEvent.Alike.same (.removeKey id) nofun _, _, hkeys.erase id, rfl⟩

theorem replaceKey_alike (hstate : v.KeysApart v') (id : KeyId) {f g : Fragments} (h : f.Alike g)
    (metadata : KeyMetadata) :
    Answered (.replaceKey id f metadata) (.replaceKey id g metadata) (v.replaceKey id f metadata)
      (v'.replaceKey id g metadata) := by
  obtain ⟨keys', hkeys, rfl⟩ := hstate
  have hfound := hkeys id
  unfold Vault.replaceKey Answered
  dsimp only
  generalize v.keys.lookup id = found at hfound ⊢
  generalize keys'.lookup id = found' at hfound ⊢
  cases hfound with
  | none => exact ⟨.replace id h metadata _, keys', hkeys, rfl⟩
  | @some entry entry' hentry =>
    dsimp only
    have hnew : KeyEntry.Alike ⟨entry.name, f, metadata⟩ ⟨entry'.name, g, metadata⟩ :=
      ⟨hentry.name, h, rfl⟩
    rw [hentry.name] at hnew ⊢
    exact ⟨.replace id h metadata _, _, hkeys.insert id hnew, rfl⟩

theorem perform_unseeing {op : VaultOp} (hop : op.looksAtKeys = false) (hstate : v.KeysApart v') :
    Option.Rel (Answered op op) (Vault.perform env op v) (Vault.perform env op v') := by
  obtain ⟨keys', hkeys, rfl⟩ := hstate
  have hne : op ≠ .loadKeys := by
    rintro rfl
    cases hop
  have hwrites : op.writes .keys = false := by
    cases op <;> first | rfl | cases hop
  rw [perform_with_keys hop v keys']
  cases hperform : Vault.perform env op v with
  | none => exact .none
  | some out =>
    have hkept : out.2.keys = v.keys := (Vault.perform_frame hperform).keys hwrites
    refine .some ⟨.same hne out.1, keys', ?_, rfl⟩
    rw [hkept]
    exact hkeys

theorem perform_alike {op op' : VaultOp} (hop : op.Alike op') (hstate : v.KeysApart v') :
    Option.Rel (Answered op op') (Vault.perform env op v) (Vault.perform env op' v') := by
  cases hop with
  | same =>
    cases op with
    | loadKeys =>
      obtain ⟨keys', hkeys, rfl⟩ := hstate
      exact .some ⟨.load hkeys, keys', hkeys, rfl⟩
    | insertKey id entry =>
      exact .some (insertKey_alike hstate id ⟨rfl, .refl _, rfl⟩)
    | removeKey id => exact .some (removeKey_alike hstate id)
    | replaceKey id fragments metadata =>
      exact .some (replaceKey_alike hstate id (.refl _) metadata)
    | _ => exact perform_unseeing rfl hstate
  | insert id hentry => exact .some (insertKey_alike hstate id hentry)
  | replace id h metadata => exact .some (replaceKey_alike hstate id h metadata)

end Writers

/-! ### Calls -/

section Calls

variable {env : Environment} {α β : Type} {R : α → β → Prop} {key key' : Bytes} {f g : Fragments}

theorem inStep_loadKeys {p q : KeyMap → VaultProgram α} {Q : α → α → Prop}
    (h : ∀ keys keys', keys.Alike keys' → InStep vaultLikeness Q (p keys) (q keys')) :
    InStep vaultLikeness Q (Atomic.loadKeys >>= p) (Atomic.loadKeys >>= q) := by
  refine ⟨.same _, fun keys keys' halike => ?_⟩
  cases halike with
  | same hop => exact absurd rfl hop
  | load hkeys => exact h _ _ hkeys

theorem uses_open {op : VaultOp} (hop : op ≠ .loadKeys) :
    Program.Uses (S := vaultSignature) vaultLikeness.Open (.step op .done) :=
  ⟨open_of_ne_loadKeys hop, fun _ => trivial⟩

theorem uses_open_emitAudit (env : Environment) (name : String) (kind : AccessKind)
    (note : String) :
    Program.Uses (S := vaultSignature) vaultLikeness.Open (emitAudit env name kind note) :=
  uses_emitAudit (open_of_ne_loadKeys nofun)

theorem uses_open_keyLocked (name : String) :
    Program.Uses (S := vaultSignature) vaultLikeness.Open (keyLocked name) :=
  uses_keyLocked (open_of_ne_loadKeys nofun) (open_of_ne_loadKeys nofun)

theorem uses_open_isLockedOut :
    Program.Uses (S := vaultSignature) vaultLikeness.Open isLockedOut :=
  @uses_open .loadLockedOut nofun

theorem inStep_checkedThen {handle : KeyId} {rest : KeyEntry → VaultProgram (Result α)}
    {rest' : KeyEntry → VaultProgram (Result α)} {Q : α → α → Prop}
    (hrest : ∀ entry entry', entry.Alike entry' →
      InStep vaultLikeness (Agrees Q) (rest entry) (rest' entry')) :
    InStep vaultLikeness (Agrees Q) (checkedThen handle rest) (checkedThen handle rest') := by
  unfold checkedThen
  apply inStep_shared uses_open_isLockedOut
  intro locked
  split
  · exact rfl
  · apply inStep_loadKeys
    intro keys keys' hkeys
    have hfound := hkeys handle
    generalize keys.lookup handle = found at hfound ⊢
    generalize keys'.lookup handle = found' at hfound ⊢
    cases hfound with
    | none => exact rfl
    | some hentry =>
      dsimp only
      rw [hentry.name]
      apply inStep_shared (uses_open_keyLocked _)
      intro keyLocked
      split
      · exact rfl
      · exact hrest _ _ hentry

theorem inStep_readEntry (hblind : env.fragmenter.Blind) {entry entry' : KeyEntry}
    (hentry : entry.Alike entry') (opens : Bool) (scratch scratch' : Bytes) :
    InStep vaultLikeness (Agrees SameLength) (readEntry env entry opens scratch id)
      (readEntry env entry' opens scratch' id) := by
  have hread := agrees_readKey hblind hentry.fragments opens scratch scratch'
  unfold readEntry
  rw [hentry.name]
  obtain ⟨exit, hx, hy⟩ | ⟨read, read', hx, hy, hlength⟩ := hread.cases
  · rw [hx, hy]
    exact rfl
  · rw [hx, hy]
    apply inStep_shared (uses_open_emitAudit _ _ _ _)
    intro _
    exact hlength

theorem inStep_withKey (hblind : env.fragmenter.Blind) (handle : KeyId) (opens : Bool)
    (scratch scratch' : Bytes) :
    InStep vaultLikeness (Agrees SameLength) (withKey env handle opens scratch id)
      (withKey env handle opens scratch' id) := by
  rw [withKey_checkedThen, withKey_checkedThen]
  apply inStep_checkedThen
  intro entry entry' hentry
  exact inStep_readEntry hblind hentry opens scratch scratch'

theorem inStep_replaceKey (handle : KeyId) (h : f.Alike g) (metadata : KeyMetadata) :
    InStep vaultLikeness Eq (Atomic.replaceKey handle f metadata)
      (Atomic.replaceKey handle g metadata) := by
  refine ⟨.replace handle h metadata, fun name name' halike => ?_⟩
  cases halike <;> rfl

theorem inStep_insertKey (handle : KeyId) {entry entry' : KeyEntry} (h : entry.Alike entry') :
    InStep vaultLikeness Eq (Atomic.insertKey handle entry) (Atomic.insertKey handle entry') := by
  refine ⟨.insert handle h, fun inserted inserted' halike => ?_⟩
  cases halike <;> rfl

theorem inStep_swapKey (handle : KeyId) (keyLen : Nat) (h : f.Alike g) :
    InStep vaultLikeness (Agrees Eq) (swapKey env handle keyLen f) (swapKey env handle keyLen g) := by
  unfold swapKey
  apply inStep_shared (@uses_open .readUnixTime nofun)
  intro registered
  apply inStep_bind (inStep_replaceKey handle h _)
  rintro name _ rfl
  cases name with
  | none => exact rfl
  | some name =>
    apply inStep_shared (uses_open_emitAudit _ _ _ _)
    intro _
    exact rfl

theorem inStep_rotate (hblind : env.fragmenter.Blind) (h : SameLength key key') (handle : KeyId)
    (rng : Rng) (os : OsAnswers) :
    InStep vaultLikeness (Agrees Eq) (rotate env handle key rng os)
      (rotate env handle key' rng os) := by
  rw [rotate_checkedThen, rotate_checkedThen]
  apply inStep_checkedThen
  intro _ _ _
  obtain ⟨exit, hx, hy⟩ | ⟨made, made', hx, hy, halike⟩ :=
    (agrees_fragmentForRegistry hblind os h rng).cases
  · rw [hx, hy]
    exact rfl
  · rw [hx, hy, h]
    exact inStep_swapKey handle _ halike

theorem inStep_installKey (name : String) (keyLen : Nat) (h : f.Alike g) :
    InStep vaultLikeness Eq (installKey env name keyLen f) (installKey env name keyLen g) := by
  unfold installKey
  apply inStep_shared (@uses_open .allocateHandle nofun)
  intro handle
  apply inStep_shared (@uses_open .readUnixTime nofun)
  intro registered
  apply inStep_bind (@inStep_insertKey handle ⟨name, f, _⟩ ⟨name, g, _⟩ ⟨rfl, h, rfl⟩)
  rintro inserted _ rfl
  split
  · apply inStep_shared (uses_open_emitAudit _ _ _ _)
    intro _
    exact rfl
  · exact rfl

theorem inStep_register (hblind : env.fragmenter.Blind) (h : SameLength key key') (name : String)
    (rng : Rng) (os : OsAnswers) :
    InStep vaultLikeness Eq (register env name key rng os) (register env name key' rng os) := by
  unfold register
  apply inStep_shared uses_open_isLockedOut
  intro locked
  split
  · exact rfl
  · apply inStep_loadKeys
    intro keys keys' hkeys
    rw [hkeys.hasName]
    split
    · exact rfl
    · obtain ⟨exit, hx, hy⟩ | ⟨made, made', hx, hy, halike⟩ :=
        (agrees_fragmentForRegistry hblind os h rng).cases
      · rw [hx, hy]
        exact rfl
      · rw [hx, hy, h]
        exact inStep_installKey name _ halike

theorem inStep_isKeyLockedOut (handle : KeyId) :
    InStep vaultLikeness Eq (isKeyLockedOut handle) (isKeyLockedOut handle) := by
  unfold isKeyLockedOut
  apply inStep_loadKeys
  intro keys keys' hkeys
  have hfound := hkeys handle
  generalize keys.lookup handle = found at hfound ⊢
  generalize keys'.lookup handle = found' at hfound ⊢
  cases hfound with
  | none => exact rfl
  | some hentry =>
    dsimp only
    rw [hentry.name]
    exact inStep_self (fun _ => rfl) (uses_open_keyLocked _)

theorem inStep_fragment (hblind : env.fragmenter.Blind) (h : SameLength key key') (rng : Rng)
    (os : OsAnswers) :
    InStep vaultLikeness (Agrees Fragments.Alike) (fragment env os key rng)
      (fragment env os key' rng) := by
  unfold fragment
  apply inStep_shared uses_open_isLockedOut
  intro locked
  split
  · exact rfl
  · obtain ⟨exit, hx, hy⟩ | ⟨made, made', hx, hy, halike⟩ :=
      (agrees_fragmentPipeline hblind os h rng).cases
    · rw [hx, hy]
      exact rfl
    · rw [hx, hy]
      apply inStep_shared (uses_open_emitAudit _ _ _ _)
      intro _
      exact halike.1

theorem inStep_defragment (hblind : env.fragmenter.Blind) (h : f.Alike g) :
    InStep vaultLikeness (Agrees SameLength) (defragment env f) (defragment env g) := by
  unfold defragment
  apply inStep_shared uses_open_isLockedOut
  intro locked
  split
  · exact rfl
  · obtain ⟨exit, hx, hy⟩ | ⟨encoded, encoded', hx, hy, hlength⟩ := (hblind.defragment h).cases
    · rw [hx, hy]
      exact rfl
    · rw [hx, hy]
      apply inStep_shared (uses_open_emitAudit _ _ _ _)
      intro _
      cases env.codex with
      | none => exact hlength
      | some codex =>
        show List.length _ = List.length _
        simpa [codexApply] using hlength

end Calls

/-! ### Requests and runs -/

/-- The requests differ at most in the bytes of keys of one length, in the bytes of
fragments of one layout, and in what the thread's scratch buffer held. -/
inductive Request.Alike : Request → Request → Prop
  | same (request : Request) : Alike request request
  | register (name : String) {key key' : Bytes} (h : SameLength key key') (rng : Rng)
      (os : OsAnswers) : Alike (.register name key rng os) (.register name key' rng os)
  | withKey (handle : KeyId) (opens : Bool) (scratch scratch' : Bytes) :
      Alike (.withKey handle opens scratch) (.withKey handle opens scratch')
  | rotate (handle : KeyId) {key key' : Bytes} (h : SameLength key key') (rng : Rng)
      (os : OsAnswers) : Alike (.rotate handle key rng os) (.rotate handle key' rng os)
  | fragment {key key' : Bytes} (h : SameLength key key') (rng : Rng) (os : OsAnswers) :
      Alike (.fragment key rng os) (.fragment key' rng os)
  | defragment {f g : Fragments} (h : f.Alike g) : Alike (.defragment f) (.defragment g)

inductive Response.Alike : Response → Response → Prop
  | same (response : Response) : Alike response response
  | material {result result' : Result Bytes} (h : Agrees SameLength result result') :
      Alike (.material result) (.material result')
  | fragments {result result' : Result Fragments} (h : Agrees Fragments.Alike result result') :
      Alike (.fragments result) (.fragments result')

theorem program_open {env : Environment} {request : Request}
    (h : ¬ request.MayUse .loadKeys) :
    Program.Uses (S := vaultSignature) vaultLikeness.Open (request.program env) := by
  apply (program_uses env request).mono
  intro op hop
  apply open_of_ne_loadKeys
  rintro rfl
  exact h hop

/-- A call ends alike, whatever the keys it meets. -/
theorem inStep_program {env : Environment} (hblind : env.fragmenter.Blind) {first second : Request}
    (h : first.Alike second) :
    InStep vaultLikeness Response.Alike (first.program env) (second.program env) := by
  have hregister : ∀ name {key key' : Bytes} (rng : Rng) (os : OsAnswers), SameLength key key' →
      InStep vaultLikeness Response.Alike (Request.program env (.register name key rng os))
        (Request.program env (.register name key' rng os)) := by
    intro name key key' rng os hlength
    apply inStep_bind (inStep_register hblind hlength name rng os)
    rintro result _ rfl
    exact .same _
  have hwithKey : ∀ handle opens (scratch scratch' : Bytes),
      InStep vaultLikeness Response.Alike (Request.program env (.withKey handle opens scratch))
        (Request.program env (.withKey handle opens scratch')) := by
    intro handle opens scratch scratch'
    apply inStep_bind (inStep_withKey hblind handle opens scratch scratch')
    intro result result' hresult
    exact .material hresult
  have hrotate : ∀ handle {key key' : Bytes} (rng : Rng) (os : OsAnswers), SameLength key key' →
      InStep vaultLikeness Response.Alike (Request.program env (.rotate handle key rng os))
        (Request.program env (.rotate handle key' rng os)) := by
    intro handle key key' rng os hlength
    apply inStep_bind (inStep_rotate hblind hlength handle rng os)
    intro result result' hresult
    rw [agrees_eq hresult]
    exact .same _
  cases h with
  | register name hlength rng os => exact hregister name rng os hlength
  | withKey handle opens scratch scratch' => exact hwithKey handle opens scratch scratch'
  | rotate handle hlength rng os => exact hrotate handle rng os hlength
  | fragment hlength rng os =>
    apply inStep_bind (inStep_fragment hblind hlength rng os)
    intro result result' hresult
    exact .fragments hresult
  | defragment halike =>
    apply inStep_bind (inStep_defragment hblind halike)
    intro result result' hresult
    exact .material hresult
  | same =>
    cases first with
    | register name key rng os => exact hregister name rng os rfl
    | withKey handle opens scratch => exact hwithKey handle opens scratch scratch
    | rotate handle key rng os => exact hrotate handle rng os rfl
    | isKeyLockedOut handle =>
      apply inStep_bind (inStep_isKeyLockedOut handle)
      rintro flag _ rfl
      exact .same _
    | _ => exact inStep_self Response.Alike.same (program_open id)

theorem external_alike (event : Surroundings) {v v' : Vault} (hstate : v.KeysApart v') :
    Option.Rel Vault.KeysApart (event.act v) (event.act v') := by
  obtain ⟨keys', hkeys, rfl⟩ := hstate
  cases event with
  | tick now =>
    unfold Surroundings.act
    dsimp only
    split
    · exact .some ⟨keys', hkeys, rfl⟩
    · exact .none
  | setUnixTime time => exact .some ⟨keys', hkeys, rfl⟩
  | allocateHandle => exact .some ⟨keys', hkeys, rfl⟩

def twoKeyrings {env : Environment} (hblind : env.fragmenter.Blind) :
    Machine.Pairing vaultLikeness (vaultMachine env) (vaultMachine env) where
  state := Vault.KeysApart
  request := Request.Alike
  response := Response.Alike
  perform := perform_alike
  program := inStep_program hblind
  external := external_alike

namespace KeyVaultBuilder

theorem keyBlind_featureStandard (features : Features) (xof : Bytes → Nat → UInt8) :
    KeyBlind (featureStandard features xof).strategy := by
  apply KeyBlind.standard
  unfold featureStandard
  intro decoy hdecoy
  split at hdecoy
  · cases hdecoy
    exact SelfReferenceDecoy.blind
  · split at hdecoy
    · cases hdecoy
      exact KeyDerivedDecoy.blind xof
    · split at hdecoy
      · cases hdecoy
        exact RandomDecoy.blind
      · cases hdecoy

/-- Whatever features are compiled in, the vault they configure is blind to keys. -/
theorem keyBlind_fromFeatures {features : Features} {xof : Bytes → Nat → UInt8} {rng : Rng}
    {b : KeyVaultBuilder} (hnew : fromFeatures features xof rng = .ok b) (given : Finishing) :
    KeyBlind (b.finish given).fragmenter := by
  unfold fromFeatures at hnew
  obtain ⟨fragmenter, hfragmenter, hrest⟩ := bind_eq_ok.mp hnew
  obtain ⟨codex, _, hb⟩ := bind_eq_ok.mp hrest
  cases hb
  show KeyBlind (strategy fragmenter)
  unfold featureFragmenter at hfragmenter
  split at hfragmenter
  · obtain ⟨layered, hlayered, hmade⟩ := bind_eq_ok.mp hfragmenter
    cases hmade
    apply KeyBlind.layered
    rw [LayeredFragmenter.new_subStrategies hlayered]
    intro sub hsub
    simp only [List.mem_cons, List.not_mem_nil, or_false] at hsub
    obtain rfl | rfl | rfl := hsub
    · exact keyBlind_featureStandard features xof
    · exact .interleaved _
    · exact .random _
  · split at hfragmenter
    · cases hfragmenter
      exact .random _
    · split at hfragmenter
      · cases hfragmenter
        exact .interleaved _
      · cases hfragmenter
        exact keyBlind_featureStandard features xof

end KeyVaultBuilder

/-- Key bytes are unobservable. Change the bytes of the keys in a schedule, keeping
their lengths, and the run goes through as before: the states differ at most in the
bytes of the stored chunks, so the failures, the lockouts, the backoff, the monitor's
events, the audit trail and the metadata are the same, and every call that returned
has returned the same answer or, where the answer is key material, the same error or
material of the same size. -/
theorem keys_unobservable {env : Environment} (hblind : KeyBlind env.fragmenter)
    (clock unixTime : Duration) (handles : Nat) {schedule schedule' : List (Action Request Surroundings)}
    (hschedule : List.Forall₂ (Action.Alike Request.Alike) schedule schedule')
    {c : VaultConfiguration}
    (hrun : (vaultMachine env).follow (.start (.new clock unixTime handles)) schedule = some c) :
    ∃ d, (vaultMachine env).follow (.start (.new clock unixTime handles)) schedule' = some d ∧
      c.shared.KeysApart d.shared ∧
      ∀ caller request response, c.Returned caller request response →
        ∃ request' response', d.Returned caller request' response' ∧ request.Alike request' ∧
          response.Alike response' := by
  have hnew : (Vault.new clock unixTime handles).KeysApart (.new clock unixTime handles) :=
    ⟨∅, fun _ => .none, rfl⟩
  have hstart : (twoKeyrings hblind.blind).Configs (.start (.new clock unixTime handles))
      (.start (.new clock unixTime handles)) := Machine.Pairing.configs_start hnew
  have hfollow := hstart.follow hschedule
  rw [hrun] at hfollow
  generalize (vaultMachine env).follow (.start (.new clock unixTime handles)) schedule' = finish
    at hfollow ⊢
  cases hfollow with
  | some hconfigs =>
    exact ⟨_, rfl, hconfigs.shared, fun caller request response => hconfigs.returned⟩

def watchedVault : Environment :=
  { Environment.plain { maxFailuresBeforeLockout := 1 } with
    auditIsNoOp := false
    fragmenter := (StandardFragmenter.new.withDecoy SelfReferenceDecoy.strategy).strategy }

def guessedAt (key next : Bytes) : List (Action Request Surroundings) :=
  [.invoke (.register "k" key (.constant 1) ⟨true, true, true⟩)] ++ List.replicate 6 (.exec 0) ++
  [.invoke (.withKey 1 true key)] ++ List.replicate 4 (.exec 1) ++
  [.invoke (.reportFailure "k" none)] ++ List.replicate 5 (.exec 2) ++
  [.invoke (.rotate 1 next (.constant 1) ⟨true, true, true⟩), .exec 3]

theorem guessedAt_alike {key key' next next' : Bytes} (h : SameLength key key')
    (hnext : SameLength next next') :
    List.Forall₂ (Action.Alike Request.Alike) (guessedAt key next) (guessedAt key' next') := by
  repeat' first
    | exact .nil
    | apply List.Forall₂.cons
    | exact .exec _
    | exact .invoke (.register _ h _ _)
    | exact .invoke (.withKey _ _ _ _)
    | exact .invoke (.same _)
    | exact .invoke (.rotate _ hnext _ _)

theorem keys_unobservable_guessedAt : ∃ c d : VaultConfiguration,
    (vaultMachine watchedVault).follow (.start (.new 0 0 0)) (guessedAt [1, 2, 3] [4]) = some c ∧
      (vaultMachine watchedVault).follow (.start (.new 0 0 0)) (guessedAt [9, 0, 9] [7]) = some d ∧
      c.shared.auditTrail.length = 2 ∧ c.shared.KeysApart d.shared := by
  have haudits : ((vaultMachine watchedVault).follow (.start (.new 0 0 0))
      (guessedAt [1, 2, 3] [4])).map (fun c => c.shared.auditTrail.length) = some 2 := by
    decide +kernel
  obtain ⟨c, hrun, hc⟩ := Option.map_eq_some_iff.mp haudits
  have hblind : KeyBlind watchedVault.fragmenter :=
    .standard _ (by rintro decoy ⟨⟩; exact SelfReferenceDecoy.blind)
  have halike : List.Forall₂ (Action.Alike Request.Alike) (guessedAt [1, 2, 3] [4])
      (guessedAt [9, 0, 9] [7]) := guessedAt_alike rfl rfl
  obtain ⟨d, hrun', happart, _⟩ := keys_unobservable hblind 0 0 0 halike hrun
  exact ⟨c, d, hrun, hrun', hc, happart⟩

end KeyVault
