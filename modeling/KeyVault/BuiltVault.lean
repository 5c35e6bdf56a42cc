import KeyVault.Acceptance
import KeyVault.KeyReads
import KeyVault.MasterBackoff
import KeyVault.RegistryCalls
import KeyVault.VaultBuilder

/-! What a vault does that was built by a sequence of setter calls: which bytes its
callbacks see, that it closes when its normalization key could not be made, and which
master credentials it lets in. -/
namespace KeyVault

open Interleaving

/-- What a vault relies on in the parts that its user brings. -/
def BuilderCall.Sound : BuilderCall → Prop
  | .withFragmenter strategy => strategy.Reliable
  | .withCodex codex => codex.Undone
  | _ => True

namespace KeyVaultBuilder

variable {blake3 : Blake3} (b : KeyVaultBuilder)

/-! ### What a built vault makes of key bytes -/

def Finishing.drawn (given : Finishing) : Option Digest :=
  match hfill : given.rng.fill 32 with
  | .ok (secret, _) => some ⟨secret.toArray, by simpa using length_of_fill hfill⟩
  | .error _ => none

def Finishing.form (given : Finishing) : Bool → NormalizationKey → Option (Bytes → Bytes)
  | false, _ => some id
  | true, .none => some fun key => (given.blake3.hash key).toList
  | true, .random => given.drawn.map fun secret key => (given.blake3.keyed secret key).toList
  | true, .derived secret => some fun key => (given.blake3.keyed secret key).toList

theorem normalForm_secretOrUnavailable {env : Environment} {secret : Bytes} {protect : Bool}
    {os : OsAnswers} (hlength : secret.length = 32)
    (h : env.normalizer = secretOrUnavailable secret protect os) {key working : Bytes}
    (hworking : normalForm env key = .ok working) :
    working = (env.blake3Keyed ⟨secret.toArray, by simpa using hlength⟩ key).toList := by
  unfold secretOrUnavailable at h
  rw [← normalize_true] at hworking
  unfold normalize at hworking
  cases hnew : SecretBytes.new secret protect os with
  | error exit =>
    rw [hnew] at h
    rw [h] at hworking
    cases hworking
  | ok bytes =>
    rw [hnew] at h
    rw [h] at hworking
    dsimp only at hworking
    rw [SecretBytes.read_new hnew] at hworking
    dsimp only at hworking
    rw [dif_pos hlength] at hworking
    exact (Except.ok.inj hworking).symm

theorem drawn_of_fill {given : Finishing} {secret : Bytes} {rng : Rng}
    (hfill : given.rng.fill 32 = .ok (secret, rng)) :
    given.drawn = some ⟨secret.toArray, by simpa using length_of_fill hfill⟩ := by
  unfold Finishing.drawn
  split
  · rename_i secret' rng' hfill'
    rw [hfill] at hfill'
    cases hfill'
    rfl
  · rename_i exit hfill'
    rw [hfill] at hfill'
    cases hfill'

/-- A key is normalized as the choices say, or not accepted. -/
theorem normalForm_finish (given : Finishing) {key working : Bytes}
    (h : normalForm (b.finish given) key = .ok working) :
    ∃ form, given.form b.keyNormalization b.normalizationKey = some form ∧ working = form key := by
  have hnormalizer : (b.finish given).normalizer = b.normalizer given.rng given.normalizerOs := rfl
  unfold normalizer at hnormalizer
  cases hon : b.keyNormalization with
  | false =>
    rw [hon, if_neg Bool.false_ne_true] at hnormalizer
    unfold normalForm at h
    rw [hnormalizer] at h
    cases h
    exact ⟨id, rfl, rfl⟩
  | true =>
    rw [hon, if_pos rfl] at hnormalizer
    cases hchosen : b.normalizationKey with
    | none =>
      rw [hchosen] at hnormalizer
      unfold normalForm at h
      rw [hnormalizer] at h
      cases h
      exact ⟨_, rfl, rfl⟩
    | random =>
      rw [hchosen] at hnormalizer
      cases hfill : given.rng.fill 32 with
      | error exit =>
        rw [hfill] at hnormalizer
        unfold normalForm at h
        rw [hnormalizer] at h
        cases h
      | ok drawn =>
        obtain ⟨secret, rng⟩ := drawn
        rw [hfill] at hnormalizer
        refine ⟨_, congrArg (Option.map _) (drawn_of_fill hfill), ?_⟩
        exact normalForm_secretOrUnavailable (length_of_fill hfill) hnormalizer h
    | derived secret =>
      rw [hchosen] at hnormalizer
      exact ⟨_, rfl, normalForm_secretOrUnavailable Vector.length_toList hnormalizer h⟩

/-! ### What the callbacks of a built vault see -/

structure Sound : Prop where
  reliable : (strategy b.fragmenter).Reliable
  undone : ∀ codex ∈ b.codex, codex.Undone

theorem standard_reliable (fragmenter : StandardFragmenter) :
    (strategy (.standard fragmenter)).Reliable :=
  Builtin.reliable (.standard fragmenter)

theorem sound_apply {b : KeyVaultBuilder} (h : b.Sound) {call : BuilderCall} (hcall : call.Sound) :
    (b.apply blake3 call).Sound := by
  cases call with
  | withFragmenter strategy => exact ⟨hcall, h.undone⟩
  | withChunkRange low high => exact ⟨standard_reliable _, h.undone⟩
  | withCodex codex =>
    refine ⟨h.reliable, ?_⟩
    intro chosen hchosen
    cases hchosen
    exact hcall
  | withDecoy decoy =>
    refine ⟨?_, ?_⟩
    · show (strategy (b.withDecoy decoy).fragmenter).Reliable
      rw [fragmenter_withDecoy]
      have hreliable := h.reliable
      cases hfragmenter : b.fragmenter with
      | standard fragmenter => exact standard_reliable _
      | custom strategy =>
        rw [hfragmenter] at hreliable
        exact hreliable
    · show ∀ codex ∈ (b.withDecoy decoy).codex, codex.Undone
      rw [withDecoy_codex]
      exact h.undone
  | _ => exact ⟨h.reliable, h.undone⟩

theorem sound_after {b : KeyVaultBuilder} (h : b.Sound) {calls : List BuilderCall}
    (hcalls : ∀ call ∈ calls, call.Sound) : (b.after blake3 calls).Sound := by
  induction calls generalizing b with
  | nil => exact h
  | cons call calls ih =>
    obtain ⟨hcall, hcalls⟩ := List.forall_mem_cons.mp hcalls
    exact ih (sound_apply h hcall) hcalls

theorem featureFragmenter_reliable {features : Features} {xof : Bytes → Nat → UInt8}
    {fragmenter : BuilderFragmenter} (h : featureFragmenter features xof = .ok fragmenter) :
    (strategy fragmenter).Reliable := by
  unfold featureFragmenter at h
  split at h
  · obtain ⟨layered, hlayered, h⟩ := bind_eq_ok.mp h
    cases h
    cases hlayered
    refine Builtin.reliable (.layered _ fun sub hsub => ?_)
    simp only [List.mem_cons, List.not_mem_nil, or_false] at hsub
    rcases hsub with rfl | rfl | rfl
    · exact .standard _
    · exact .interleaved _
    · exact .random _
  · split at h
    · cases h
      exact Builtin.reliable (.random _)
    · split at h
      · cases h
        exact Builtin.reliable (.interleaved _)
      · cases h
        exact standard_reliable _

theorem featureCodex_undone {features : Features} {rng : Rng} {codex : Option Codex}
    (h : featureCodex features rng = .ok codex) : ∀ chosen ∈ codex, chosen.Undone := by
  unfold featureCodex at h
  split at h
  · cases hnew : DynamicCodex.new rng with
    | error exit =>
      rw [hnew] at h
      cases h
    | ok out =>
      rw [hnew] at h
      cases h
      rintro chosen ⟨⟩ byte
      obtain ⟨inner, hinner, hout⟩ := bind_eq_ok.mp hnew
      cases hout
      exact (StaticCodex.randomInvolution_involution hinner byte).1
  · cases h
    intro chosen hchosen
    cases hchosen

theorem Started.sound {b : KeyVaultBuilder} (h : Started b) : b.Sound := by
  cases h with
  | new => exact ⟨standard_reliable _, fun codex hcodex => by cases hcodex⟩
  | fromFeatures h =>
    unfold KeyVaultBuilder.fromFeatures at h
    obtain ⟨fragmenter, hfragmenter, h⟩ := bind_eq_ok.mp h
    obtain ⟨codex, hcodex, h⟩ := bind_eq_ok.mp h
    cases h
    exact ⟨featureFragmenter_reliable hfragmenter, featureCodex_undone hcodex⟩

theorem material_of_read {env : Environment} {clock unixTime : Duration} {handles : Nat}
    {c : VaultConfiguration} (hcodex : env.CodexUndone) (hfragmenter : env.fragmenter.Reliable)
    (hrun : (vaultMachine env).Reaches (.start (.new clock unixTime handles)) c)
    {caller : Nat} {handle : KeyId} {opens : Bool} {scratch bytes : Bytes}
    (hreturned : c.Returned caller (.withKey handle opens scratch) (.material (.ok bytes))) :
    ∃ before snapshot after raw,
      c.log = before ++
        ⟨caller, .withKey handle opens scratch, happened .loadKeys snapshot⟩ :: after ∧
      lastMaterial handle before = some raw ∧ normalForm env raw = .ok bytes := by
  obtain ⟨horderly, hmaterial⟩ := materialInvariant_run hrun
    ⟨Machine.orderly_start _, materialInvariant_start env clock unixTime handles⟩
  obtain ⟨result, hresult, hpath⟩ := horderly.returned hreturned
  cases hresult
  rcases hpath.outcome with ⟨hlocked, -⟩ | ⟨snapshot, hload, houtcome⟩
  · cases hlocked
  · obtain ⟨before, after, hsplit⟩ := horderly.split hreturned hload
    have htracks := hmaterial.snapshots before _ after hsplit snapshot rfl handle
    unfold registryOf at htracks
    cases hlookup : snapshot.lookup handle with
    | none =>
      rw [hlookup] at houtcome
      cases houtcome
    | some entry =>
      rw [hlookup] at houtcome htracks
      obtain ⟨raw, hraw, hstores⟩ := htracks
      obtain ⟨working, hworking, hread⟩ :=
        readKey_of_stores hcodex hfragmenter hstores opens scratch
      dsimp only at houtcome
      rw [houtcome] at hread
      rcases hread with hok | ⟨-, hrefused⟩
      · cases hok
        exact ⟨before, snapshot, after, raw, hsplit, hraw, hworking⟩
      · cases hrefused

/-- Whatever the order of the setter calls, every callback of every run of the vault
they build sees the normalized form they ask for: once a normalization key has been
chosen and normalization is on, only keyed digests under the one key of the vault. -/
theorem callbacks_see_form {b : KeyVaultBuilder} (hstart : Started b) {calls : List BuilderCall}
    (hsound : ∀ call ∈ calls, call.Sound) (given : Finishing) {clock unixTime : Duration}
    {handles : Nat} {c : VaultConfiguration}
    (hrun : (vaultMachine ((b.after given.blake3 calls).finish given)).Reaches
      (.start (.new clock unixTime handles)) c)
    {caller : Nat} {handle : KeyId} {opens : Bool} {scratch bytes : Bytes}
    (hreturned : c.Returned caller (.withKey handle opens scratch) (.material (.ok bytes))) :
    ∃ form before snapshot after raw,
      given.form (lastWrite BuilderCall.switches true calls)
        (lastWrite (BuilderCall.choosesKey given.blake3) .none calls) = some form ∧
      c.log = before ++
        ⟨caller, .withKey handle opens scratch, happened .loadKeys snapshot⟩ :: after ∧
      lastMaterial handle before = some raw ∧ bytes = form raw := by
  have hbuilt : (b.after given.blake3 calls).Sound := sound_after hstart.sound hsound
  have hundone : ((b.after given.blake3 calls).finish given).CodexUndone := hbuilt.undone
  obtain ⟨before, snapshot, after, raw, hlog, hraw, hbytes⟩ :=
    material_of_read hundone hbuilt.reliable hrun hreturned
  obtain ⟨form, hform, rfl⟩ := normalForm_finish _ given hbytes
  rw [keyNormalization_after, normalizationKey_after, hstart.untouched.keyNormalization,
    hstart.untouched.normalizationKey] at hform
  exact ⟨form, before, snapshot, after, raw, hform, hlog, hraw, rfl⟩

def toggled : List BuilderCall :=
  [.withNormalizationKey [5], .withPageProtection true, .normalizeWithBlake3 false,
    .withMasterKey [9] (.constant 3), .normalizeWithBlake3 true]

def toggledVault : Environment := (KeyVaultBuilder.new.after firstByte toggled).finish calm

def registerThenRead : List (Action Request Surroundings) :=
  [.invoke (.register "k" [1, 2, 3] (.constant 5) ⟨true, true, true⟩)] ++
  List.replicate 5 (.exec 0) ++ [.invoke (.withKey 1 true [])] ++ List.replicate 3 (.exec 1)

theorem callbacks_see_form_toggled : ∃ c : VaultConfiguration,
    c.Returned 1 (.withKey 1 true []) (.material (.ok (List.replicate 32 6))) ∧
      ∃ before snapshot after raw,
        c.log = before ++ ⟨1, .withKey 1 true [], happened .loadKeys snapshot⟩ :: after ∧
        lastMaterial 1 before = some raw ∧
        List.replicate 32 6 = (firstByte.keyed (Vector.replicate 32 5) raw).toList := by
  have hread : ((vaultMachine toggledVault).follow (Config.start (Vault.new 0 0 0))
      registerThenRead).map (fun c => finishedRead c 1) =
        some (some ⟨1, true, [], .material (.ok (List.replicate 32 6))⟩) := by
    decide +kernel
  obtain ⟨c, hfollow, hc⟩ := Option.map_eq_some_iff.mp hread
  have hreturned := returned_of_finishedRead hc
  have hsound : ∀ call ∈ toggled, call.Sound := by
    simp [toggled, BuilderCall.Sound]
  obtain ⟨form, before, snapshot, after, raw, hform, hlog, hraw, hbytes⟩ :=
    callbacks_see_form .new hsound calm (Machine.follow_reaches hfollow) hreturned
  cases hform
  exact ⟨c, hreturned, before, snapshot, after, raw, hlog, hraw, hbytes⟩

end KeyVaultBuilder

/-! ### A vault without its normalization key -/

section Unavailable

variable {env : Environment} {reason : String}

theorem fragmentPipeline_unavailable (h : env.normalizer = .unavailable reason) (os : OsAnswers)
    (key : Bytes) (rng : Rng) :
    fragmentPipeline env os key rng = fail (.internal reason) := by
  unfold fragmentPipeline normalize
  rw [h]
  rfl

theorem fragmentForRegistry_unavailable (h : env.normalizer = .unavailable reason) (os : OsAnswers)
    (key : Bytes) (rng : Rng) : fragmentForRegistry env os key rng = fail (.internal reason) := by
  unfold fragmentForRegistry
  rw [fragmentPipeline_unavailable h]
  rfl

theorem not_stores_of_unavailable (h : env.normalizer = .unavailable reason) {fragments : Fragments}
    {key : Bytes} : ¬ Stores env fragments key := by
  rintro ⟨os, rng, hstored⟩
  rw [fragmentForRegistry_unavailable h] at hstored
  cases hstored

def Request.handlesKey : Request → Bool
  | .register _ _ _ _ | .rotate _ _ _ _ | .withKey _ _ _ | .fragment _ _ _ => true
  | _ => false

def Request.FragmentFails : Request → List VaultEvent → Response → Prop
  | .fragment _ _ _, _, response => response.Failed
  | _, _, _ => True

theorem obeys_fragmentFails (h : env.normalizer = .unavailable reason) (request : Request) :
    Program.Obeys (S := vaultSignature) (fun _ _ => True) request.FragmentFails []
      (request.program env) := by
  cases request with
  | fragment key rng os =>
    unfold Request.program fragment
    simp only [fragmentPipeline_unavailable h]
    refine ⟨trivial, fun locked => ?_⟩
    cases locked <;> exact trivial
  | _ => exact obeys_of_uses (program_uses env _) (fun _ _ _ => trivial) fun _ _ => trivial

theorem RegisterPath.failed_of_unavailable (h : env.normalizer = .unavailable reason) {name : String}
    {key : Bytes} {rng : Rng} {os : OsAnswers} {events : List VaultEvent} {result : Result KeyId}
    (hpath : RegisterPath env name key rng os events result) : (Response.handle result).Failed := by
  cases hpath with
  | installed snapshot id time fragments hfragment =>
    rw [fragmentForRegistry_unavailable h] at hfragment
    cases hfragment
  | _ => trivial

theorem RotatePath.failed_of_unavailable (h : env.normalizer = .unavailable reason) {handle : KeyId}
    {key : Bytes} {rng : Rng} {os : OsAnswers} {events : List VaultEvent} {result : Result Unit}
    (hpath : RotatePath env handle key rng os events result) : (Response.status result).Failed := by
  cases hpath with
  | replaced snapshot entry check time fragments name hcheck hfragment =>
    rw [fragmentForRegistry_unavailable h] at hfragment
    cases hfragment
  | _ => trivial

/-- Without its normalization key a vault never holds a key, and every call that would
take one in or hand one out fails. -/
theorem unavailable_run (h : env.normalizer = .unavailable reason) {clock unixTime : Duration}
    {handles : Nat} {c : VaultConfiguration}
    (hrun : (vaultMachine env).Reaches (.start (.new clock unixTime handles)) c) :
    (∀ id, c.shared.keys.lookup id = none) ∧
      ∀ (caller : Nat) (request : Request) (response : Response), request.handlesKey = true →
        c.Returned caller request response → response.Failed := by
  obtain ⟨horderly, hmaterial⟩ := materialInvariant_run hrun
    ⟨Machine.orderly_start _, materialInvariant_start env clock unixTime handles⟩
  have hnone : ∀ {log : List VaultEntry} {keys : KeyMap}, Tracks env log (registryOf keys) →
      ∀ id, keys.lookup id = none := by
    intro log keys htracks id
    have hheld := htracks id
    unfold registryOf at hheld
    cases hlookup : keys.lookup id with
    | none => rfl
    | some entry =>
      rw [hlookup] at hheld
      obtain ⟨key, -, hstores⟩ := hheld
      exact (not_stores_of_unavailable h hstores).elim
  refine ⟨hnone hmaterial.current, ?_⟩
  intro caller request response hhandles hreturned
  cases request with
  | register name key rng os =>
    obtain ⟨result, rfl, hpath⟩ := horderly.returned hreturned
    exact hpath.failed_of_unavailable h
  | rotate handle key rng os =>
    obtain ⟨result, rfl, hpath⟩ := horderly.returned hreturned
    exact hpath.failed_of_unavailable h
  | withKey handle opens scratch =>
    obtain ⟨result, rfl, hpath⟩ := horderly.returned hreturned
    rcases hpath.outcome with ⟨rfl, -⟩ | ⟨snapshot, hload, houtcome⟩
    · exact trivial
    · obtain ⟨before, after, hsplit⟩ := horderly.split hreturned hload
      rw [hnone (hmaterial.snapshots before _ after hsplit snapshot rfl) handle] at houtcome
      rw [houtcome]
      exact trivial
  | fragment key rng os =>
    exact (hrun.orderly (obeys_fragmentFails h) (Machine.orderly_start _)).returned hreturned
  | _ => cases hhandles

end Unavailable

namespace KeyVaultBuilder

/-- The normalization key could not be made: the randomness source failed, or the
operating system refused the mapping that page protection asks for. -/
def Finishing.KeyLost (given : Finishing) (chosen : NormalizationKey) (protect : Bool) : Prop :=
  (chosen = .random ∧ given.drawn = none) ∨
    (chosen ≠ .none ∧ protect = true ∧
      (given.normalizerOs.maps = false ∨ given.normalizerOs.seals = false))

theorem intoProtected_refused {os : OsAnswers} (h : os.maps = false ∨ os.seals = false)
    (fragments : Fragments) : ∃ exit, fragments.intoProtected os = .error exit := by
  cases hmoved : fragments.intoProtected os with
  | error exit => exact ⟨exit, rfl⟩
  | ok moved =>
    unfold Fragments.intoProtected at hmoved
    obtain ⟨_, -, hmoved⟩ := bind_eq_ok.mp hmoved
    obtain ⟨_, hmaps, hmoved⟩ := bind_eq_ok.mp hmoved
    obtain ⟨_, hseals, -⟩ := bind_eq_ok.mp hmoved
    rw [require_eq_ok] at hmaps hseals
    rcases h with hrefused | hrefused
    · exact absurd hmaps (by simp [hrefused])
    · exact absurd hseals (by simp [hrefused])

theorem secretOrUnavailable_refused {os : OsAnswers} (h : os.maps = false ∨ os.seals = false)
    (secret : Bytes) : ∃ reason, secretOrUnavailable secret true os = .unavailable reason := by
  obtain ⟨exit, hrefused⟩ := intoProtected_refused h (Fragments.fromParts [secret] [] secret.length)
  refine ⟨"could not create the protected mapping for the normalization key", ?_⟩
  unfold secretOrUnavailable SecretBytes.new
  rw [if_pos rfl, hrefused]
  rfl

theorem normalizer_of_keyLost {b : KeyVaultBuilder} {given : Finishing}
    (hon : b.keyNormalization = true)
    (h : given.KeyLost b.normalizationKey b.config.pageProtection) :
    ∃ reason, (b.finish given).normalizer = .unavailable reason := by
  have hnormalizer : (b.finish given).normalizer = b.normalizer given.rng given.normalizerOs := rfl
  unfold normalizer at hnormalizer
  rw [hon, if_pos rfl] at hnormalizer
  rw [hnormalizer]
  cases hchosen : b.normalizationKey with
  | none =>
    rw [hchosen] at h
    rcases h with ⟨hrandom, -⟩ | ⟨hkey, -⟩
    · cases hrandom
    · exact absurd rfl hkey
  | random =>
    cases hfill : given.rng.fill 32 with
    | error exit => exact ⟨_, rfl⟩
    | ok drawn =>
      obtain ⟨secret, rng⟩ := drawn
      rcases h with ⟨-, hdrawn⟩ | ⟨-, hprotect, hrefused⟩
      · rw [drawn_of_fill hfill] at hdrawn
        cases hdrawn
      · rw [hprotect]
        exact secretOrUnavailable_refused hrefused secret
  | derived secret =>
    rw [hchosen] at h
    rcases h with ⟨hrandom, -⟩ | ⟨-, hprotect, hrefused⟩
    · cases hrandom
    · rw [hprotect]
      exact secretOrUnavailable_refused hrefused secret.toList

/-- A vault that was asked for a normalization key and could not make one is closed for
good: in no run does it store a key under plain BLAKE3 or as it came. -/
theorem fails_closed {b : KeyVaultBuilder} (hstart : Started b) {calls : List BuilderCall}
    {given : Finishing} (hon : lastWrite BuilderCall.switches true calls = true)
    (hlost : given.KeyLost (lastWrite (BuilderCall.choosesKey given.blake3) .none calls)
      (lastWrite BuilderCall.protects false calls))
    {clock unixTime : Duration} {handles : Nat} {c : VaultConfiguration}
    (hrun : (vaultMachine ((b.after given.blake3 calls).finish given)).Reaches
      (.start (.new clock unixTime handles)) c) :
    (∀ id, c.shared.keys.lookup id = none) ∧
      ∀ (caller : Nat) (request : Request) (response : Response), request.handlesKey = true →
        c.Returned caller request response → response.Failed := by
  have huntouched := hstart.untouched
  obtain ⟨reason, hreason⟩ : ∃ reason,
      ((b.after given.blake3 calls).finish given).normalizer = .unavailable reason := by
    apply normalizer_of_keyLost
    · rw [keyNormalization_after, huntouched.keyNormalization, hon]
    · rw [normalizationKey_after, pageProtection_after, huntouched.normalizationKey,
        huntouched.pageProtection]
      exact hlost
  exact unavailable_run hreason hrun

def cramped : Finishing := { calm with normalizerOs := ⟨false, true, true⟩ }

def crampedVault : Environment := (KeyVaultBuilder.new.after firstByte toggled).finish cramped

def refusedThenRead : List (Action Request Surroundings) :=
  [.invoke (.register "k" [1, 2, 3] (.constant 5) ⟨true, true, true⟩)] ++
  List.replicate 2 (.exec 0) ++ [.invoke (.withKey 1 true [])] ++ List.replicate 2 (.exec 1)

theorem fails_closed_cramped : ∃ (c : VaultConfiguration) (response : Response),
    c.Returned 1 (.withKey 1 true []) response ∧ response.Failed ∧
      c.shared.keys.lookup 1 = none := by
  have hread : ((vaultMachine crampedVault).follow (Config.start (Vault.new 0 0 0))
      refusedThenRead).map (fun c => finishedRead c 1) =
        some (some ⟨1, true, [], .material (fail .keyNotFound)⟩) := by
    decide +kernel
  obtain ⟨c, hfollow, hc⟩ := Option.map_eq_some_iff.mp hread
  have hreturned := returned_of_finishedRead hc
  have hlost : cramped.KeyLost
      (lastWrite (BuilderCall.choosesKey cramped.blake3) .none toggled)
      (lastWrite BuilderCall.protects false toggled) :=
    .inr ⟨nofun, rfl, .inl rfl⟩
  obtain ⟨habsent, hfailed⟩ := fails_closed .new rfl hlost (Machine.follow_reaches hfollow)
  exact ⟨c, _, hreturned, hfailed 1 _ _ rfl hreturned, habsent 1⟩

end KeyVaultBuilder

/-! ### The master credential -/

section Master

variable {env : Environment}

def unlockResult : MasterAttempt → Result Unit
  | .refused exit => .error exit
  | .checked true => .ok ()
  | .checked false => fail (.acquisition "master" "master credential did not match")

def Request.UnlockEnds (env : Environment) : Request → List VaultEvent → Response → Prop
  | .unlockWithMaster attempt opens, history, response =>
      (env.master = none ∧ response = .status (fail (.invalidConfig
        "vault has no master key registered; pass with_master_key at build time"))) ∨
      ∃ verifier outcome, env.master = some verifier ∧
        happened (.attemptMaster verifier attempt opens) outcome ∈ history ∧
        response = .status (unlockResult outcome)
  | _, _, _ => True

theorem obeys_mem {α : Type} {event : VaultEvent} {history : List VaultEvent} (hmem : event ∈ history)
    (p : VaultProgram α) :
    Program.Obeys (S := vaultSignature) (fun _ _ => True) (fun later _ => event ∈ later)
      history p := by
  induction p generalizing history with
  | done value => exact hmem
  | step op next ih => exact ⟨trivial, fun ret => ih ret (List.mem_append_left _ hmem)⟩

theorem obeys_then {α β : Type} {event : VaultEvent} {history : List VaultEvent} {value : β}
    (hmem : event ∈ history) (p : VaultProgram α) :
    Program.Obeys (S := vaultSignature) (fun _ _ => True)
      (fun later returned => event ∈ later ∧ returned = value) history (p >>= fun _ => .done value) :=
  Program.obeys_bind (obeys_mem hmem p) fun _ _ hlater => ⟨hlater, rfl⟩

theorem unlockAfter_obeys {event : VaultEvent} {history : List VaultEvent} (hmem : event ∈ history)
    (outcome : MasterAttempt) :
    Program.Obeys (S := vaultSignature) (fun _ _ => True)
      (fun later returned => event ∈ later ∧ returned = .status (unlockResult outcome)) history
      (unlockAfter env outcome) := by
  cases outcome with
  | refused exit => exact ⟨hmem, rfl⟩
  | checked matched =>
    cases matched with
    | true =>
      refine Program.obeys_bind (obeys_mem hmem _) fun later _ hlater => ?_
      exact obeys_then hlater _
    | false =>
      refine Program.obeys_bind (obeys_mem hmem _) fun later _ hlater => ?_
      exact obeys_then hlater _

theorem obeys_unlockEnds (request : Request) :
    Program.Obeys (S := vaultSignature) (fun _ _ => True) (request.UnlockEnds env) []
      (request.program env) := by
  cases request with
  | unlockWithMaster attempt opens =>
    rw [program_unlockWithMaster]
    cases hmaster : env.master with
    | none => exact .inl ⟨hmaster, rfl⟩
    | some verifier =>
      refine ⟨trivial, fun outcome => ?_⟩
      refine (unlockAfter_obeys (List.mem_singleton_self _) outcome).mono (fun _ _ h => h) ?_
      rintro later returned ⟨hmem, rfl⟩
      exact .inr ⟨verifier, outcome, hmaster, hmem, rfl⟩
  | _ => exact obeys_of_uses (program_uses env _) (fun _ _ _ => trivial) fun _ _ => trivial

theorem unlock_answered {v : Vault} {c : VaultConfiguration}
    (hrun : (vaultMachine env).Reaches (.start v) c) {caller : Nat} {attempt : Bytes} {opens : Bool}
    {result : Result Unit}
    (hreturned : c.Returned caller (.unlockWithMaster attempt opens) (.status result)) :
    (env.master = none ∧ result = fail (.invalidConfig
      "vault has no master key registered; pass with_master_key at build time")) ∨
    ∃ (verifier : MasterVerifier) (w : Vault), env.master = some verifier ∧
      result = unlockResult (w.attemptMaster env verifier attempt opens).1 := by
  have hends := (hrun.orderly obeys_unlockEnds (Machine.orderly_start _)).returned hreturned
  rcases hends with ⟨hmaster, hresult⟩ | ⟨verifier, outcome, hmaster, hmem, hresult⟩
  · exact .inl ⟨hmaster, Response.status.inj hresult⟩
  · right
    obtain ⟨entry, hentry, -, hevent⟩ := mem_eventsBy.mp hmem
    have hanswered := hrun.answered (by simp [Config.start]) entry hentry
    rw [hevent] at hanswered
    obtain ⟨w, w', hperform⟩ := hanswered
    refine ⟨verifier, w, hmaster, ?_⟩
    rw [Response.status.inj hresult]
    exact congrArg unlockResult (congrArg Prod.fst (Option.some.inj hperform)).symm

theorem SecretBytes.read_of_ok {secret : SecretBytes} {opens : Bool} {bytes : Bytes}
    (h : secret.read opens = .ok bytes) : secret.read true = .ok bytes := by
  obtain ⟨-, hbytes⟩ := SecretBytes.read_eq_ok.mp h
  exact SecretBytes.read_eq_ok.mpr ⟨Fragments.open_true _, hbytes⟩

theorem SecretBytes.read_error {secret : SecretBytes} {opens : Bool} {exit : Exit}
    (h : secret.read opens = .error exit) :
    exit = .error (.memoryLock "could not make the key's pages readable") := by
  unfold SecretBytes.read at h
  cases hopen : secret.fragments.open opens with
  | ok granted =>
    rw [hopen, ok_bind] at h
    cases h
  | error refused =>
    rw [hopen] at h
    cases h
    exact (Fragments.open_eq_error hopen).2

theorem checked_of_attempt {v : Vault} {verifier : MasterVerifier} {attempt : Bytes} {opens matched : Bool}
    (h : (v.attemptMaster env verifier attempt opens).1 = .checked matched) :
    ∃ secret stored, verifier = .ready secret ∧ secret.read true = .ok stored ∧
      matched = verifyMaster env stored attempt := by
  unfold Vault.attemptMaster at h
  dsimp only at h
  split at h
  · cases h
  · cases verifier with
    | unavailable reason => cases h
    | ready secret =>
      dsimp only at h
      cases hread : secret.read opens with
      | error exit =>
        rw [hread] at h
        cases h
      | ok stored =>
        rw [hread] at h
        dsimp only at h
        refine ⟨secret, stored, rfl, SecretBytes.read_of_ok hread, ?_⟩
        cases hverify : verifyMaster env stored attempt with
        | true =>
          rw [hverify] at h
          cases h
          rfl
        | false =>
          rw [hverify] at h
          cases h
          rfl

theorem not_acquisition_of_refused {v : Vault} {verifier : MasterVerifier} {attempt : Bytes}
    {opens : Bool} {exit : Exit}
    (h : (v.attemptMaster env verifier attempt opens).1 = .refused exit) (source reason : String) :
    exit ≠ .error (.acquisition source reason) := by
  rintro rfl
  unfold Vault.attemptMaster at h
  dsimp only at h
  split at h
  · cases h
  · cases verifier with
    | unavailable reason => cases h
    | ready secret =>
      dsimp only at h
      cases hread : secret.read opens with
      | error exit =>
        rw [hread, SecretBytes.read_error hread] at h
        cases h
      | ok stored =>
        rw [hread] at h
        dsimp only at h
        split at h <;> cases h

theorem checked_of_unlockResult {v : Vault} {verifier : MasterVerifier} {attempt : Bytes}
    {opens matched : Bool} (h : unlockResult (v.attemptMaster env verifier attempt opens).1 =
      unlockResult (.checked matched)) :
    (v.attemptMaster env verifier attempt opens).1 = .checked matched := by
  cases houtcome : (v.attemptMaster env verifier attempt opens).1 with
  | refused exit =>
    rw [houtcome] at h
    cases matched with
    | true => cases h
    | false => exact (not_acquisition_of_refused houtcome _ _ (Except.error.inj h)).elim
  | checked checked =>
    rw [houtcome] at h
    cases checked <;> cases matched <;> first | rfl | cases h

theorem splitFirstChunk_append (hashKey : Digest) (digest : Bytes) :
    splitFirstChunk (hashKey.toList ++ digest) = some (hashKey, digest) := by
  have hlength : hashKey.toList.length = 32 := Vector.length_toList
  unfold splitFirstChunk
  rw [dif_pos (by rw [List.length_append, hlength]; omega), List.drop_left' hlength]
  refine congrArg some (Prod.ext ?_ rfl)
  apply Vector.toList_inj.mp
  show (hashKey.toList ++ digest).take 32 = hashKey.toList
  exact List.take_left' hlength

theorem verifyMaster_append (hashKey digest : Digest) (attempt : Bytes) :
    verifyMaster env (hashKey.toList ++ digest.toList) attempt =
      decide (env.blake3Keyed hashKey attempt = digest) := by
  unfold verifyMaster
  rw [splitFirstChunk_append]
  apply Bool.eq_iff_iff.mpr
  rw [beq_iff_eq, decide_eq_true_eq, Vector.toList_inj]
  exact eq_comm

end Master

namespace KeyVaultBuilder

theorem masterSeed_ok {master stored : Bytes} {rng : Rng}
    (h : masterSeed blake3 master rng = .ok stored) : ∃ hashKey rng',
      rng.fill 32 = .ok (Vector.toList hashKey, rng') ∧
        stored = hashKey.toList ++ (blake3.keyed hashKey master).toList := by
  unfold masterSeed at h
  split at h
  · rename_i bytes rng' hfill
    cases h
    exact ⟨⟨bytes.toArray, by simpa using length_of_fill hfill⟩, rng', hfill, rfl⟩
  · cases h

theorem registered_last {b : KeyVaultBuilder} (hstart : Started b) {calls : List BuilderCall}
    {seed : MasterSeed} (h : (b.after blake3 calls).master = some seed) :
    ∃ before master rng after, calls = before ++ .withMasterKey master rng :: after ∧
      (∀ call ∈ after, BuilderCall.setsMaster blake3 call = none) ∧
      masterSeed blake3 master rng = seed := by
  rw [master_after, hstart.untouched.master] at h
  rcases lastWrite_cases (BuilderCall.setsMaster blake3) calls with
    hsilent | ⟨before, call, after, written, rfl, hcall, hafter⟩
  · rw [lastWrite_of_silent hsilent] at h
    cases h
  · rw [lastWrite_split _ hcall hafter] at h
    subst h
    cases call with
    | withMasterKey master rng =>
      exact ⟨before, master, rng, after, rfl, hafter, Option.some.inj (Option.some.inj hcall)⟩
    | _ => cases hcall

theorem masterVerifier_ready {protect : Bool} {os : OsAnswers} {seed : MasterSeed}
    {secret : SecretBytes} (h : masterVerifier protect os seed = .ready secret) :
    ∃ stored, seed = .ok stored ∧ secret.read true = .ok stored := by
  cases seed with
  | error reason => cases h
  | ok stored =>
    unfold masterVerifier at h
    dsimp only at h
    cases hnew : SecretBytes.new stored protect os with
    | error exit =>
      rw [hnew] at h
      cases h
    | ok made =>
      rw [hnew] at h
      cases h
      exact ⟨stored, rfl, SecretBytes.read_new hnew⟩

/-- A verdict on a credential compares it with the one registered last: an unlock call
that succeeds, or that reports a mismatch, says whether the two keyed digests agree. -/
theorem unlock_verdict {b : KeyVaultBuilder} (hstart : Started b) {calls : List BuilderCall}
    (given : Finishing) {clock unixTime : Duration} {handles : Nat} {c : VaultConfiguration}
    (hrun : (vaultMachine ((b.after given.blake3 calls).finish given)).Reaches
      (.start (.new clock unixTime handles)) c)
    {caller : Nat} {attempt : Bytes} {opens matched : Bool}
    (hreturned : c.Returned caller (.unlockWithMaster attempt opens)
      (.status (unlockResult (.checked matched)))) :
    ∃ before master rng hashKey rng' after,
      calls = before ++ .withMasterKey master rng :: after ∧
      (∀ call ∈ after, BuilderCall.setsMaster given.blake3 call = none) ∧
      rng.fill 32 = .ok (Vector.toList hashKey, rng') ∧
      matched = decide (given.blake3.keyed hashKey attempt = given.blake3.keyed hashKey master) := by
  rcases unlock_answered hrun hreturned with ⟨-, hresult⟩ | ⟨verifier, v, hmaster, hresult⟩
  · cases matched <;> cases hresult
  · obtain ⟨secret, stored, rfl, hread, rfl⟩ :=
      checked_of_attempt (checked_of_unlockResult hresult.symm)
    obtain ⟨seed, hseed, hverifier⟩ := Option.map_eq_some_iff.mp hmaster
    obtain ⟨kept, rfl, hkept⟩ := masterVerifier_ready hverifier
    obtain ⟨before, master, rng, after, hcalls, hafter, hmade⟩ := registered_last hstart hseed
    obtain ⟨hashKey, rng', hfill, rfl⟩ := masterSeed_ok hmade
    rw [hread] at hkept
    cases hkept
    exact ⟨before, master, rng, hashKey, rng', after, hcalls, hafter, hfill,
      verifyMaster_append hashKey _ attempt⟩

def twoGuesses : List (Action Request Surroundings) :=
  [.invoke (.unlockWithMaster [8] true), .invoke (.unlockWithMaster [9, 1] true)] ++
  List.replicate 4 (.exec 0) ++ List.replicate 4 (.exec 1)

/-- The credential `[9]` was registered; the hash takes `[9, 1]` for it as well. -/
theorem unlock_verdict_twoGuesses : ∃ c : VaultConfiguration,
    c.Returned 0 (.unlockWithMaster [8] true) (.status (unlockResult (.checked false))) ∧
      c.Returned 1 (.unlockWithMaster [9, 1] true) (.status (unlockResult (.checked true))) ∧
      ∃ before master rng hashKey after, toggled = before ++ .withMasterKey master rng :: after ∧
        firstByte.keyed hashKey [8] ≠ firstByte.keyed hashKey master := by
  have hguesses : ((vaultMachine toggledVault).follow (Config.start (Vault.new 0 0 0))
      twoGuesses).map (fun c => (finishedUnlock c 0, finishedUnlock c 1)) =
        some (some ([8], true, .status (unlockResult (.checked false))),
          some ([9, 1], true, .status (unlockResult (.checked true)))) := by
    decide +kernel
  obtain ⟨c, hfollow, hc⟩ := Option.map_eq_some_iff.mp hguesses
  rw [Prod.mk.injEq] at hc
  obtain ⟨hwrong, hright⟩ := hc
  have hrefused := returned_of_finishedUnlock hwrong
  obtain ⟨before, master, rng, hashKey, rng', after, hcalls, -, -, hverdict⟩ :=
    unlock_verdict .new calm (Machine.follow_reaches hfollow) hrefused
  exact ⟨c, hrefused, returned_of_finishedUnlock hright, before, master, rng, hashKey, after, hcalls,
    of_decide_eq_false hverdict.symm⟩

theorem secretBytes_readable {bytes : Bytes} (hlength : bytes.length < usizeSize) {os : OsAnswers}
    {protect opens : Bool}
    (hos : protect = true → os.maps = true ∧ os.seals = true ∧ opens = true) :
    ∃ secret, SecretBytes.new bytes protect os = .ok secret ∧ secret.read opens = .ok bytes := by
  cases protect with
  | false => exact ⟨_, rfl, rfl⟩
  | true =>
    obtain ⟨hmaps, hseals, rfl⟩ := hos rfl
    have hsize : (Fragments.fromParts [bytes] [] bytes.length).storageSize < usizeSize := by
      unfold Fragments.storageSize
      rw [Fragments.chunkBytes_fromParts, Fragments.layoutBytes_fromParts]
      simpa using hlength
    obtain ⟨secret, hsecret⟩ : ∃ secret, SecretBytes.new bytes true os = .ok secret := by
      unfold SecretBytes.new
      rw [if_pos rfl, Fragments.intoProtected_eq hsize hmaps hseals]
      exact ⟨_, rfl⟩
    exact ⟨secret, hsecret, SecretBytes.read_new hsecret⟩

theorem attemptMaster_due {env : Environment} {v : Vault} {secret : SecretBytes} {opens : Bool}
    {stored : Bytes} (hdue : v.masterBackoff.nextAllowed ≤ v.clock)
    (hread : secret.read opens = .ok stored) {attempt : Bytes}
    (hverify : verifyMaster env stored attempt = true) :
    v.attemptMaster env (.ready secret) attempt opens =
      (.checked true, { v with masterBackoff := {} }) := by
  unfold Vault.attemptMaster
  dsimp only
  rw [if_neg (Nat.not_lt.mpr hdue), hread]
  dsimp only
  rw [if_pos hverify]

/-- The source's randomness and, where pages are protected, the operating system have to do
what they are asked. -/
theorem registered_unlocks (b : KeyVaultBuilder) (before : List BuilderCall) {after : List BuilderCall}
    {master : Bytes} {rng rng' : Rng} {hashKey : Digest} (given : Finishing) {opens : Bool}
    (hafter : ∀ call ∈ after, BuilderCall.setsMaster given.blake3 call = none)
    (hfill : rng.fill 32 = .ok (hashKey.toList, rng')) {env : Environment}
    (henv : (b.after given.blake3 (before ++ .withMasterKey master rng :: after)).finish given = env)
    (hos : env.config.pageProtection = true →
      given.masterOs.maps = true ∧ given.masterOs.seals = true ∧ opens = true)
    {v : Vault} (hdue : v.masterBackoff.nextAllowed ≤ v.clock) :
    ∃ w, runAlone env (unlockWithMaster env master opens) v = some (.ok (), w) ∧
      w.lockedOut = false ∧ w.keyLocks = ∅ ∧ w.failureTracker = ∅ ∧ w.masterBackoff = {} := by
  have hseed : masterSeed given.blake3 master rng =
      .ok (hashKey.toList ++ (given.blake3.keyed hashKey master).toList) := by
    unfold masterSeed
    split
    · rename_i bytes later hfill'
      rw [hfill] at hfill'
      cases hfill'
      rfl
    · rename_i exit hfill'
      rw [hfill] at hfill'
      cases hfill'
  have hmaster : env.master = some (masterVerifier env.config.pageProtection given.masterOs
      (.ok (hashKey.toList ++ (given.blake3.keyed hashKey master).toList))) := by
    subst henv
    show Option.map _ (b.after given.blake3 _).master = _
    rw [master_after, lastWrite_split (BuilderCall.setsMaster given.blake3)
      rfl hafter, hseed]
    rfl
  have hlength : (hashKey.toList ++ (given.blake3.keyed hashKey master).toList).length < usizeSize := by
    simp [usizeSize]
  obtain ⟨secret, hsecret, hread⟩ := secretBytes_readable hlength hos
  have hready : env.master = some (.ready secret) := by
    rw [hmaster]
    unfold masterVerifier
    dsimp only
    rw [hsecret]
  have hblake3 : env.blake3Keyed = given.blake3.keyed := by
    subst henv
    rfl
  have hverify : verifyMaster env (hashKey.toList ++ (given.blake3.keyed hashKey master).toList)
      master = true := by
    rw [verifyMaster_append, hblake3, decide_eq_true_eq]
  obtain ⟨trail, haudit⟩ := runAlone_emitAudit env { v with masterBackoff := {} } masterName
    (.masterUnlockAttempt true) ""
  unfold unlockWithMaster clearLockout
  rw [hready]
  simp only [runAlone_bind, runAlone_attemptMaster, attemptMaster_due hdue hread hverify,
    Option.bind_some, haudit, if_true, runAlone_storeUnlocked, runAlone_clearKeyLocks,
    runAlone_clearFailures, runAlone_pure]
  exact ⟨_, rfl, rfl, rfl, rfl, rfl⟩

theorem registered_unlocks_locked : ∃ w,
    runAlone toggledVault (unlockWithMaster toggledVault [9] true)
      { Vault.new 3 0 0 with lockedOut := true } = some (.ok (), w) ∧ w.lockedOut = false := by
  have hafter : ∀ call ∈ [BuilderCall.normalizeWithBlake3 true],
      call.setsMaster calm.blake3 = none := by
    simp [BuilderCall.setsMaster]
  obtain ⟨hashKey, rng', hfill⟩ : ∃ (hashKey : Digest) (rng' : Rng),
      (Rng.constant 3).fill 32 = .ok (hashKey.toList, rng') :=
    ⟨⟨((List.range 32).map fun position => (LittleEndian.encode 8 3).getD position 0).toArray, rfl⟩,
      _, rfl⟩
  obtain ⟨w, hunlocked, hopen, -⟩ := registered_unlocks .new
    [.withNormalizationKey [5], .withPageProtection true, .normalizeWithBlake3 false] calm hafter
    hfill rfl (fun _ => ⟨rfl, rfl, rfl⟩) (v := { Vault.new 3 0 0 with lockedOut := true })
    (Nat.zero_le 3)
  exact ⟨w, hunlocked, hopen⟩

end KeyVaultBuilder

end KeyVault
