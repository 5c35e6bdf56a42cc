import KeyVault.Decoys
import KeyVault.KeyMaterial
import KeyVault.Relocation
import KeyVault.SequentialCalls

/-! Which keys `register` and `rotate` accept when nothing around the vault fails. The
only stage that rejects an empty key is the fragmenter, and normalization runs before
it. -/
namespace KeyVault

/-! ### Fragmenters -/

/-- Built-in fragmenters, with built-in decoys, that can describe a key of `length` bytes
in 32-bit words. -/
inductive Takes (length : Nat) : FragmentStrategy → Prop where
  | standard (f : StandardFragmenter) (hdecoy : ∀ decoy ∈ f.decoy, ∃ scale, BuiltinDecoy decoy scale)
      (hlimit : length < decoyOffset) : Takes length f.strategy
  | random (f : RandomFragmenter) (hlimit : length ≤ u32Max) : Takes length f.strategy
  | interleaved (f : InterleavedFragmenter) (hlimit : length * f.poolFactor ≤ u32Max) :
      Takes length f.strategy
  | layered (f : LayeredFragmenter) (hsub : ∀ sub ∈ f.subStrategies, Takes length sub) :
      Takes length f.strategy

/-- The chunk range allows decoys whose buffers are longer than `isize::MAX`. -/
inductive Oversized : FragmentStrategy → Prop where
  | standard {f : StandardFragmenter} {decoy : DecoyStrategy} {scale : Nat}
      (hdecoy : f.decoy = some decoy) (hbuiltin : BuiltinDecoy decoy scale)
      (hsize : isizeMax < f.maxChunk * scale) : Oversized f.strategy
  | layered {f : LayeredFragmenter} {sub : FragmentStrategy} (hsub : sub ∈ f.subStrategies)
      (h : Oversized sub) : Oversized f.strategy

theorem BuiltinDecoy.serves {decoy : DecoyStrategy} {scale limit : Nat} {key : Bytes}
    (h : BuiltinDecoy decoy scale) (hkey : key ≠ []) (hlimit : limit * scale ≤ isizeMax) :
    decoy.Serves key limit := by
  intro size rng hsize hrng
  have hscaled : size * scale ≤ isizeMax := Nat.le_trans (Nat.mul_le_mul_right scale hsize) hlimit
  obtain ⟨bytes, rng', hbytes, -, hrng'⟩ := h.generate_ok hkey hscaled hrng
  exact ⟨bytes, rng', hbytes, hrng'⟩

theorem Takes.fragment_ok {s : FragmentStrategy} {key : Bytes} {rng : Rng}
    (h : Takes key.length s) (hfits : ¬ Oversized s) (hkey : key ≠ []) (hrng : rng.Reliable) :
    ∃ fragments rng', s.fragment key rng = .ok (fragments, rng') ∧ rng'.Reliable := by
  have hempty : key.length ≠ 0 := by simpa using hkey
  induction h generalizing rng with
  | standard f hdecoy hlimit =>
    apply StandardFragmenter.fragment_reliable _ hrng hempty hlimit
    intro decoy hconfigured
    obtain ⟨scale, hbuiltin⟩ := hdecoy decoy hconfigured
    apply hbuiltin.serves hkey
    apply Nat.le_of_not_lt
    intro hsize
    exact hfits (.standard hconfigured hbuiltin hsize)
  | random f hlimit => exact f.fragment_reliable hrng hempty hlimit
  | interleaved f hlimit => exact f.fragment_reliable hrng hempty hlimit
  | layered f hsub ih =>
    obtain ⟨r, rng₁, hr, hrng₁⟩ := hrng.randomU64
    have hposition : r % f.subStrategies.length < f.subStrategies.length :=
      Nat.mod_lt _ (List.length_pos_iff.mpr f.nonempty)
    have hcount := f.length_le
    have hmem := List.getElem_mem hposition
    obtain ⟨fragments, rng₂, hfragments, hrng₂⟩ := ih _ hmem
      (fun hover => hfits (.layered hmem hover)) hrng₁
    unfold LayeredFragmenter.strategy LayeredFragmenter.fragment
    dsimp only
    rw [hr, ok_bind]
    dsimp only
    rw [index_of_getElem? (List.getElem?_eq_getElem hposition), ok_bind, hfragments, ok_bind]
    dsimp only
    rw [require_of (by omega), ok_bind]
    exact ⟨_, _, rfl, hrng₂⟩

theorem Takes.fragment_empty {s : FragmentStrategy} {length : Nat} (h : Takes length s) (rng : Rng)
    (out : Fragments × Rng) : s.fragment [] rng ≠ .ok out := by
  induction h generalizing rng out with
  | standard f hdecoy hlimit => exact fun hout => nomatch hout
  | random f hlimit => exact fun hout => nomatch hout
  | interleaved f hlimit => exact fun hout => nomatch hout
  | layered f hsub ih =>
    intro hout
    simp only [LayeredFragmenter.strategy, LayeredFragmenter.fragment, bind_eq_ok,
      Prod.exists] at hout
    obtain ⟨r, rng₁, -, sub, hindex, fragments, rng₂, hfragments, -⟩ := hout
    exact ih sub (List.mem_of_getElem? (index_eq_ok.mp hindex)) rng₁ _ hfragments

theorem Oversized.fragment_refused {s : FragmentStrategy} (h : Oversized s) (key : Bytes)
    (calls : Nat) : ∃ values : Nat → Nat, ∀ values', (∀ call, calls ≤ call → values' call = values call) →
      ∀ out, s.fragment key (.ofValuesAt values' calls) ≠ .ok out := by
  induction h generalizing calls with
  | @standard f decoy scale hdecoy hbuiltin hsize =>
    refine ⟨fun _ => f.maxChunk - f.minChunk, ?_⟩
    intro values' hvalues' out
    exact StandardFragmenter.fragment_refused hdecoy
      (fun rng bytes => hbuiltin.generate_oversized hsize rng bytes) hvalues' out
  | @layered f sub hsub _ ih =>
    obtain ⟨values, hvalues⟩ := ih (calls + 1)
    obtain ⟨position, hposition, hsub⟩ := List.getElem_of_mem hsub
    -- the first draw picks that strategy, and the rest is drawn by it
    refine ⟨Function.update values calls position, ?_⟩
    intro values' hvalues' out hout
    have hcount := f.length_le
    have hmax : u32Max < usizeSize := by decide
    have hfirst : values' calls = position := by
      rw [hvalues' calls (Nat.le_refl _), Function.update_self]
    have hrest : ∀ call, calls + 1 ≤ call → values' call = values call := by
      intro call hcall
      rw [hvalues' call (by omega), Function.update_of_ne (by omega)]
    simp only [LayeredFragmenter.strategy, LayeredFragmenter.fragment] at hout
    rw [Rng.randomU64_ofValuesAt values' (by omega), ok_bind] at hout
    dsimp only at hout
    rw [hfirst, Nat.mod_eq_of_lt hposition,
      index_of_getElem? ((List.getElem?_eq_getElem hposition).trans (congrArg some hsub)),
      ok_bind] at hout
    obtain ⟨inner, hinner, -⟩ := bind_eq_ok.mp hout
    exact hvalues values' hrest inner hinner

theorem not_oversized {s : FragmentStrategy} {key : Bytes}
    (h : ∀ rng : Rng, rng.Reliable → ∃ out, s.fragment key rng = .ok out) : ¬ Oversized s := by
  intro hover
  obtain ⟨values, hvalues⟩ := hover.fragment_refused key 0
  obtain ⟨out, hout⟩ := h (.ofValues values) (Rng.ofValues_reliable values)
  exact hvalues values (fun _ _ => rfl) out hout

theorem not_oversized_new : ¬ Oversized StandardFragmenter.new.strategy := by
  apply @not_oversized _ [0]
  intro rng hrng
  obtain ⟨fragments, rng', hfragment, -⟩ := @StandardFragmenter.fragment_reliable
    StandardFragmenter.new [0] rng (fun decoy hdecoy => by cases hdecoy) hrng (by decide) (by decide)
  exact ⟨_, hfragment⟩

theorem takes_new {length : Nat} (h : length < decoyOffset) :
    Takes length StandardFragmenter.new.strategy :=
  .standard _ (fun decoy hdecoy => by cases hdecoy) h

/-! ### The pipeline -/

inductive Normalizer.Ready : Normalizer → Prop where
  | off : Ready .off
  | plain : Ready .plain
  | keyed {hashKey : Digest} {protect : Bool} {os : OsAnswers} {secret : SecretBytes}
      (h : SecretBytes.new hashKey.toList protect os = .ok secret) : Ready (.keyed secret)

def Environment.handedLength (env : Environment) (key : Bytes) : Nat :=
  match env.normalizer with
  | .off => key.length
  | _ => 32

/-- The randomness source and the operating system do what they are asked during a call
that stores `key`. A mapping can be asked for only if its size is a `usize`. -/
structure Supported (env : Environment) (key : Bytes) (rng : Rng) (os : OsAnswers) : Prop where
  reliable : rng.Reliable
  maps : os.maps = true
  seals : os.seals = true
  opens : os.opens = true
  size : ∀ fragments rng', fragmentPipeline env os key rng = .ok (fragments, rng') →
    fragments.storageSize < usizeSize

section Pipeline

variable {env : Environment} {key : Bytes} {rng : Rng} {os : OsAnswers}

theorem SecretBytes.read_new {bytes : Bytes} {protect : Bool} {os : OsAnswers}
    {secret : SecretBytes} (h : SecretBytes.new bytes protect os = .ok secret) :
    secret.read true = .ok bytes := by
  have hshown : secret.fragments.chunkBytes = [bytes] := by
    unfold SecretBytes.new at h
    cases protect with
    | false =>
      cases h
      exact Fragments.chunkBytes_fromParts ..
    | true =>
      dsimp only at h
      cases hmoved : (Fragments.fromParts [bytes] [] bytes.length).intoProtected os with
      | error exit =>
        rw [hmoved] at h
        cases h
      | ok fragments =>
        rw [hmoved] at h
        cases h
        rw [← (Fragments.intoProtected_sameView hmoved).1, Fragments.chunkBytes_fromParts]
  unfold SecretBytes.read Fragments.chunk
  rw [Fragments.open_true, ok_bind, hshown]
  rfl

theorem normalForm_ready (h : env.normalizer.Ready) : ∃ working,
    normalForm env key = .ok working ∧ working.length = env.handedLength key := by
  rw [← normalize_true]
  unfold normalize Environment.handedLength
  generalize hnormalizer : env.normalizer = normalizer at h
  cases h with
  | off => exact ⟨key, rfl, rfl⟩
  | plain => exact ⟨_, rfl, Vector.length_toList⟩
  | keyed h =>
    dsimp only
    rw [SecretBytes.read_new h]
    dsimp only
    rw [dif_pos Vector.length_toList]
    exact ⟨_, rfl, Vector.length_toList⟩

theorem length_encodedBytes (env : Environment) (working : Bytes) :
    (encodedBytes env working).length = working.length := by
  unfold encodedBytes
  split
  · exact List.length_map _
  · rfl

theorem fragmentPipeline_of_normalForm {working : Bytes} (hopens : os.opens = true)
    (h : normalForm env key = .ok working) (rng : Rng) :
    fragmentPipeline env os key rng = env.fragmenter.fragment (encodedBytes env working) rng := by
  unfold fragmentPipeline
  rw [hopens, normalize_true, h, ok_bind]
  rfl

/-- With everything around it working, the pipeline stores whatever has bytes left when
it reaches the fragmenter. -/
theorem fragmentForRegistry_ok_iff (hready : env.normalizer.Ready)
    (htakes : Takes (env.handedLength key) env.fragmenter) (hfits : ¬ Oversized env.fragmenter)
    (hsupported : Supported env key rng os) :
    (∃ fragments, fragmentForRegistry env os key rng = .ok fragments) ↔
      env.handedLength key ≠ 0 := by
  obtain ⟨working, hworking, hlength⟩ := @normalForm_ready env key hready
  rw [← length_encodedBytes env] at hlength
  have hpipeline := fragmentPipeline_of_normalForm hsupported.opens hworking rng
  rw [← hlength] at htakes ⊢
  constructor
  · rintro ⟨fragments, hfragments⟩ hempty
    obtain ⟨out, hout, -⟩ := bind_eq_ok.mp hfragments
    rw [hpipeline, List.length_eq_zero_iff.mp hempty] at hout
    exact htakes.fragment_empty rng out hout
  · intro hnonempty
    obtain ⟨fragments, rng', hfragment, -⟩ := htakes.fragment_ok hfits
      (fun hnil => hnonempty (List.length_eq_zero_iff.mpr hnil)) hsupported.reliable
    rw [← hpipeline] at hfragment
    unfold fragmentForRegistry
    rw [hfragment, ok_bind]
    dsimp only
    split
    · exact ⟨_, Fragments.intoProtected_eq (hsupported.size _ _ hfragment) hsupported.maps
        hsupported.seals⟩
    · exact ⟨fragments, rfl⟩

theorem fragmentForRegistry_oversized (hready : env.normalizer.Ready)
    (hover : Oversized env.fragmenter) (key : Bytes) : ∃ rng : Rng, rng.Reliable ∧
    ∀ os out, fragmentPipeline env os key rng ≠ .ok out := by
  obtain ⟨working, hworking, -⟩ := @normalForm_ready env key hready
  obtain ⟨values, hvalues⟩ := hover.fragment_refused (encodedBytes env working) 0
  refine ⟨.ofValues values, Rng.ofValues_reliable values, ?_⟩
  rintro os ⟨fragments, rng'⟩ hout
  obtain ⟨working', hworking', hfragment⟩ := fragmentPipeline_ok hout
  rw [hworking] at hworking'
  cases hworking'
  exact hvalues values (fun _ _ => rfl) _ hfragment

end Pipeline

/-! ### The calls -/

section Calls

variable {env : Environment} {v : Vault} {key : Bytes} {rng : Rng} {os : OsAnswers}

theorem hasName_eq_false_iff {name : String} :
    v.keys.hasName name = false ↔ ∀ handle, v.names handle ≠ some name := by
  rw [← Bool.not_eq_true, ← named_registryOf]
  unfold Registry.Named registryOf Vault.names
  simp only [Option.map_eq_some_iff, ne_eq, not_exists]

theorem register_ok_iff {name : String} :
    (∃ handle v', runAlone env (register env name key rng os) v = some (.ok handle, v')) ↔
      v.lockedOut = false ∧ (∀ handle, v.names handle ≠ some name) ∧
        ∃ fragments, fragmentForRegistry env os key rng = .ok fragments := by
  rw [← hasName_eq_false_iff]
  constructor
  · rintro ⟨handle, v', hrun⟩
    rcases register_cases hrun with ⟨-, ⟨exit, hfailed⟩, -⟩ |
      ⟨fragments, trail, hunlocked, hfree, hfragments, -, -⟩
    · cases hfailed
    · exact ⟨hunlocked, hfree, fragments, hfragments⟩
  · rintro ⟨hunlocked, hfree, fragments, hfragments⟩
    unfold register isLockedOut installKey
    simp only [runAlone_bind, runAlone_loadLockedOut, runAlone_loadKeys, Option.bind_some,
      hunlocked, hfree, Bool.false_eq_true, if_false, hfragments, runAlone_allocateHandle,
      runAlone_readUnixTime, runAlone_insertKey, Vault.insertKey, if_true]
    obtain ⟨trail, htrail⟩ := runAlone_emitAudit env { v with
      lockedOut := false
      handleCounter := v.handleCounter + 1
      keys := v.keys.insert (keyIdAfter v.handleCounter)
        ⟨name, fragments, ⟨v.unixTime, key.length, none⟩⟩ } name .register ""
    rw [htrail]
    exact ⟨_, _, rfl⟩

theorem swapKey_ok (env : Environment) {handle : KeyId} {entry : KeyEntry}
    (h : v.keys.lookup handle = some entry) (keyLen : Nat) (fragments : Fragments) :
    ∃ v', runAlone env (swapKey env handle keyLen fragments) v = some (.ok (), v') := by
  have hreplaced : runAlone env (Atomic.replaceKey handle fragments
      ⟨v.unixTime, keyLen, none⟩) v = some (some entry.name, { v with
        keys := v.keys.insert handle
          { entry with fragments := fragments, metadata := ⟨v.unixTime, keyLen, none⟩ } }) := by
    show some (v.replaceKey handle fragments ⟨v.unixTime, keyLen, none⟩) = _
    unfold Vault.replaceKey
    rw [h]
  unfold swapKey
  simp only [runAlone_bind, runAlone_readUnixTime, Option.bind_some, hreplaced]
  obtain ⟨trail, htrail⟩ := runAlone_emitAudit env { v with
    keys := v.keys.insert handle
      { entry with fragments := fragments, metadata := ⟨v.unixTime, keyLen, none⟩ } }
    entry.name .rotate ""
  rw [htrail]
  exact ⟨_, rfl⟩

theorem rotate_ok_iff {handle : KeyId} :
    (∃ v', runAlone env (rotate env handle key rng os) v = some (.ok (), v')) ↔
      v.lockedOut = false ∧ (∃ name, v.names handle = some name ∧
        ¬ (v.keyLocksActive ≠ 0 ∧ v.UnderLockout name)) ∧
        ∃ fragments, fragmentForRegistry env os key rng = .ok fragments := by
  unfold rotate isLockedOut Vault.names
  simp only [runAlone_bind, runAlone_loadLockedOut, Option.bind_some]
  cases v.lockedOut with
  | true =>
    constructor
    · rintro ⟨v', hrun⟩
      cases hrun
    · rintro ⟨hunlocked, -⟩
      cases hunlocked
  | false =>
    simp only [Bool.false_eq_true, if_false, runAlone_bind, runAlone_loadKeys, Option.bind_some,
      true_and]
    cases hlookup : v.keys.lookup handle with
    | none =>
      constructor
      · rintro ⟨v', hrun⟩
        cases hrun
      · rintro ⟨⟨name, hname, -⟩, -⟩
        cases hname
    | some entry =>
      obtain ⟨locked, w, hlocked, hkeys, hanswer⟩ := keyLocked_answer env v entry.name
      simp only [runAlone_bind, hlocked, Option.bind_some, Option.map_some, Option.some.injEq,
        exists_eq_left', ← hanswer]
      cases locked with
      | true =>
        constructor
        · rintro ⟨v', hrun⟩
          cases hrun
        · rintro ⟨hunlocked, -⟩
          exact absurd rfl hunlocked
      | false =>
        cases hfragments : fragmentForRegistry env os key rng with
        | error exit =>
          constructor
          · rintro ⟨v', hrun⟩
            cases hrun
          · rintro ⟨-, fragments, hok⟩
            cases hok
        | ok fragments =>
          rw [← hkeys] at hlookup
          obtain ⟨v', hv'⟩ := swapKey_ok env hlookup key.length fragments
          simp [hv']

end Calls

/-! ### Acceptance -/

/-- `register` returns a handle exactly when the vault is not locked out, no registered
key has the name and the key is not empty. -/
def RegistersExactly (env : Environment) (v : Vault) (name : String) (key : Bytes) (rng : Rng)
    (os : OsAnswers) : Prop :=
  (∃ handle v', runAlone env (register env name key rng os) v = some (.ok handle, v')) ↔
    v.lockedOut = false ∧ (∀ handle, v.names handle ≠ some name) ∧ key ≠ []

def RotatesExactly (env : Environment) (v : Vault) (handle : KeyId) (key : Bytes) (rng : Rng)
    (os : OsAnswers) : Prop :=
  (∃ v', runAlone env (rotate env handle key rng os) v = some (.ok (), v')) ↔
    v.lockedOut = false ∧ (∃ name, v.names handle = some name ∧ ¬ v.UnderLockout name) ∧ key ≠ []

/-- Normalization has given an empty key bytes before its length is looked at. -/
def HidesEmpty (env : Environment) (key : Bytes) : Prop := key = [] ∧ env.normalizer ≠ .off

section Acceptance

variable {env : Environment} {key : Bytes} {rng : Rng} {os : OsAnswers}

theorem handedLength_ne_zero_iff :
    env.handedLength key ≠ 0 ↔ key ≠ [] ∨ HidesEmpty env key := by
  unfold Environment.handedLength HidesEmpty
  cases env.normalizer with
  | off => simp
  | plain => simp [em']
  | keyed secret => simp [em']
  | unavailable reason => simp [em']

theorem registersExactly_iff (v : Vault) (name : String) (hready : env.normalizer.Ready)
    (htakes : Takes (env.handedLength key) env.fragmenter) (hfits : ¬ Oversized env.fragmenter)
    (hsupported : Supported env key rng os) :
    RegistersExactly env v name key rng os ↔
      ¬ (v.lockedOut = false ∧ (∀ handle, v.names handle ≠ some name) ∧ HidesEmpty env key) := by
  unfold RegistersExactly
  rw [register_ok_iff, fragmentForRegistry_ok_iff hready htakes hfits hsupported,
    handedLength_ne_zero_iff]
  unfold HidesEmpty
  tauto

theorem rotatesExactly_iff (v : Vault) (handle : KeyId) (hready : env.normalizer.Ready)
    (htakes : Takes (env.handedLength key) env.fragmenter) (hfits : ¬ Oversized env.fragmenter)
    (hsupported : Supported env key rng os) :
    RotatesExactly env v handle key rng os ↔
      ¬ (v.lockedOut = false ∧ ∃ name, v.names handle = some name ∧
        (HidesEmpty env key ∧ ¬ (v.keyLocksActive ≠ 0 ∧ v.UnderLockout name) ∨
          key ≠ [] ∧ v.keyLocksActive = 0 ∧ v.UnderLockout name)) := by
  unfold RotatesExactly
  rw [rotate_ok_iff, fragmentForRegistry_ok_iff hready htakes hfits hsupported,
    handedLength_ne_zero_iff]
  unfold HidesEmpty
  cases v.names handle with
  | none => simp
  | some name =>
    simp only [Option.some.injEq, exists_eq_left']
    tauto

/-- A source for which no call that stores `key` succeeds. -/
theorem oversized_refuses (hready : env.normalizer.Ready) (hover : Oversized env.fragmenter)
    (key : Bytes) : ∃ rng : Rng, ∀ os : OsAnswers, os.maps = true → os.seals = true →
      os.opens = true → Supported env key rng os ∧
        ∀ fragments, fragmentForRegistry env os key rng ≠ .ok fragments := by
  obtain ⟨rng, hreliable, hnever⟩ := fragmentForRegistry_oversized hready hover key
  refine ⟨rng, ?_⟩
  intro os hmaps hseals hopens
  refine ⟨⟨hreliable, hmaps, hseals, hopens, ?_⟩, ?_⟩
  · intro fragments rng' hpipeline
    exact absurd hpipeline (hnever os _)
  · intro fragments hregistry
    obtain ⟨out, hout, -⟩ := bind_eq_ok.mp hregistry
    exact hnever os out hout

/-- When the two calls accept exactly the keys they should. Where every decoy can be had,
only empty keys that normalization hides and lockouts that the counter misses are in the
way; a chunk range that allows impossible decoys lets any key be refused. -/
theorem accepts_exactly_iff (hready : env.normalizer.Ready)
    (htakes : Takes (env.handedLength key) env.fragmenter) (v : Vault) (name : String)
    (handle : KeyId) :
    (¬ Oversized env.fragmenter → ∀ rng os, Supported env key rng os →
      (RegistersExactly env v name key rng os ↔
        ¬ (v.lockedOut = false ∧ (∀ handle, v.names handle ≠ some name) ∧ HidesEmpty env key)) ∧
      (RotatesExactly env v handle key rng os ↔
        ¬ (v.lockedOut = false ∧ ∃ name, v.names handle = some name ∧
          (HidesEmpty env key ∧ ¬ (v.keyLocksActive ≠ 0 ∧ v.UnderLockout name) ∨
            key ≠ [] ∧ v.keyLocksActive = 0 ∧ v.UnderLockout name)))) ∧
    (Oversized env.fragmenter → ∃ rng, ∀ os : OsAnswers, os.maps = true → os.seals = true →
      os.opens = true → Supported env key rng os ∧
      (RegistersExactly env v name key rng os ↔
        ¬ (v.lockedOut = false ∧ (∀ handle, v.names handle ≠ some name) ∧ key ≠ [])) ∧
      (RotatesExactly env v handle key rng os ↔
        ¬ (v.lockedOut = false ∧ (∃ name, v.names handle = some name ∧ ¬ v.UnderLockout name) ∧
          key ≠ []))) := by
  constructor
  · intro hfits rng os hsupported
    exact ⟨registersExactly_iff v name hready htakes hfits hsupported,
      rotatesExactly_iff v handle hready htakes hfits hsupported⟩
  · intro hover
    obtain ⟨rng, hrefused⟩ := oversized_refuses hready hover key
    refine ⟨rng, ?_⟩
    intro os hmaps hseals hopens
    obtain ⟨hsupported, hnever⟩ := hrefused os hmaps hseals hopens
    have hnone : ¬ ∃ fragments, fragmentForRegistry env os key rng = .ok fragments :=
      not_exists.mpr hnever
    refine ⟨hsupported, ?_, ?_⟩
    · unfold RegistersExactly
      rw [register_ok_iff]
      simp only [hnone, and_false, false_iff]
    · unfold RotatesExactly
      rw [rotate_ok_iff]
      simp only [hnone, and_false, false_iff]

end Acceptance

theorem supported_of_size {env : Environment} {key : Bytes} {rng : Rng} {size : Nat}
    (hrng : rng.Reliable) (h : (fragmentPipeline env ⟨true, true, true⟩ key rng).map
      (fun out => out.1.storageSize) = .ok size) (hsize : size < usizeSize) :
    Supported env key rng ⟨true, true, true⟩ where
  reliable := hrng
  maps := rfl
  seals := rfl
  opens := rfl
  size := by
    intro fragments rng' hpipeline
    rw [hpipeline] at h
    cases h
    exact hsize

/-- The vault has one key, under the handle that is rotated. -/
theorem accepts_exactly_iff_plain : ∃ v : Vault,
    runAlone (.plain {}) (register (.plain {}) "k" [1, 2, 3] (.ofValues fun _ => 5)
      ⟨true, true, true⟩) (Vault.new 0 0 0) = some (.ok 1, v) ∧
    RegistersExactly (.plain {}) v "other" [4, 5] (.ofValues fun _ => 5) ⟨true, true, true⟩ ∧
    RotatesExactly (.plain {}) v 1 [4, 5] (.ofValues fun _ => 5) ⟨true, true, true⟩ ∧
    ∃ v', runAlone (.plain {}) (rotate (.plain {}) 1 [4, 5] (.ofValues fun _ => 5)
      ⟨true, true, true⟩) v = some (.ok (), v') := by
  have hrun : (runAlone (.plain {}) (register (.plain {}) "k" [1, 2, 3] (.ofValues fun _ => 5)
      ⟨true, true, true⟩) (Vault.new 0 0 0)).map (fun out =>
        (out.1, out.2.names 1, out.2.keyLocks.keys, out.2.lockedOut)) =
      some (.ok 1, some "k", [], false) := by
    decide +kernel
  obtain ⟨⟨result, v⟩, hregister, hout⟩ := Option.map_eq_some_iff.mp hrun
  simp only [Prod.mk.injEq] at hout
  obtain ⟨rfl, hname, hlocks, hopen⟩ := hout
  have hsupported : Supported (.plain {}) [4, 5] (.ofValues fun _ => 5) ⟨true, true, true⟩ :=
    @supported_of_size _ _ _ 6 (Rng.ofValues_reliable _) (by decide +kernel) (by decide)
  obtain ⟨hregisters, hrotates⟩ := (@accepts_exactly_iff (.plain {}) [4, 5] .off
    (takes_new (by decide)) v "other" 1).1 not_oversized_new _ _ hsupported
  have hunlocked : ∀ name, ¬ v.UnderLockout name := by
    rintro name ⟨deadline, hdeadline, -⟩
    have hmem := AList.lookup_isSome.mp (Option.isSome_of_mem hdeadline)
    rw [AList.mem_keys, hlocks] at hmem
    cases hmem
  have hrotate : RotatesExactly (.plain {}) v 1 [4, 5] (.ofValues fun _ => 5) ⟨true, true, true⟩ := by
    rw [hrotates]
    rintro ⟨-, name, -, ⟨hempty, -⟩ | ⟨-, -, hunder⟩⟩
    · cases hempty.1
    · exact hunlocked name hunder
  refine ⟨v, hregister, ?_, hrotate, hrotate.mpr ⟨hopen, ⟨"k", hname, hunlocked "k"⟩, by decide⟩⟩
  rw [hregisters]
  rintro ⟨-, -, hempty, -⟩
  cases hempty

def blake3Empty : Digest :=
  ⟨#[0xaf, 0x13, 0x49, 0xb9, 0xf5, 0xf9, 0xa1, 0xa6, 0xa0, 0x40, 0x4d, 0xea, 0x36, 0xdc, 0xc9, 0x49,
    0x9b, 0xcb, 0x25, 0xc9, 0xad, 0xc1, 0x12, 0xb7, 0xcc, 0x9a, 0x93, 0xca, 0xe4, 0x1f, 0x32, 0x62],
    rfl⟩

def normalizing : Environment :=
  { Environment.plain {} with
    normalizer := .plain
    blake3 := fun _ => blake3Empty }

/-- The vault normalizes an empty key and registers the result. -/
theorem emptyKey_not_exact :
    normalizing.normalizer.Ready ∧ Takes (normalizing.handedLength []) normalizing.fragmenter ∧
      Supported normalizing [] (.ofValues fun _ => 5) ⟨true, true, true⟩ ∧
      ¬ RegistersExactly normalizing (Vault.new 0 0 0) "k" [] (.ofValues fun _ => 5)
        ⟨true, true, true⟩ := by
  have hrun : (runAlone normalizing (register normalizing "k" [] (.ofValues fun _ => 5)
      ⟨true, true, true⟩) (Vault.new 0 0 0)).map Prod.fst = some (.ok 1) := by
    decide +kernel
  obtain ⟨⟨result, v'⟩, hregister, hresult⟩ := Option.map_eq_some_iff.mp hrun
  dsimp only at hresult
  subst hresult
  refine ⟨.plain, takes_new (by decide), ?_, ?_⟩
  · exact @supported_of_size _ _ _ 52 (Rng.ofValues_reliable _) (by decide +kernel) (by decide)
  · intro hexact
    exact (hexact.mp ⟨1, v', hregister⟩).2.2 rfl

end KeyVault
