import KeyVault.CallHistory
import KeyVault.Decoys
import KeyVault.LayeredFragmenter
import KeyVault.StaticCodex
import KeyVault.VaultState
import Mathlib.Data.List.Induction

/-! The builder. A setter stores a choice, and the choices become a vault when the
builder is finished: only then is a random normalization key drawn and the secrets
moved into their own mappings. Setters may come in any order and any number of
times, so what a vault does is stated over whole sequences of setter calls. -/
namespace KeyVault

open Interleaving

/-- The three modes of BLAKE3 that are used, as arbitrary functions. -/
structure Blake3 where
  hash : Bytes → Digest
  keyed : Digest → Bytes → Digest
  deriveKey : String → Bytes → Digest

def normalizationKeyContext : String := "key-vault 2026-10 normalization key v1"

inductive BuilderFragmenter where
  | standard (fragmenter : StandardFragmenter)
  | custom (strategy : FragmentStrategy)

inductive NormalizationKey where
  | none
  | random
  | derived (key : Digest)

/-- A 32-byte hash key, then the keyed digest of the master credential. -/
abbrev MasterSeed := Except String Bytes

structure AuditSink where
  isNoOp : Bool

/-- `keyNormalization` and `keyedNormalization` are fields of `config` in the source. -/
structure KeyVaultBuilder where
  config : VaultConfig := {}
  keyNormalization : Bool := true
  keyedNormalization : Bool := false
  fragmenter : BuilderFragmenter := .standard .new
  decoyWithoutStandard : Bool := false
  codex : Option Codex := none
  audit : Option AuditSink := none
  master : Option MasterSeed := none
  normalizationKey : NormalizationKey := .none
  decoySet : Bool := false

structure Features where
  fragmentLayered : Bool := false
  fragmentRandom : Bool := false
  fragmentInterleaved : Bool := false
  decoySelfRef : Bool := false
  decoyKeyDerived : Bool := false
  decoyRandom : Bool := false
  codex : Bool := false
  monitorTracing : Bool := false
  audit : Bool := false

/-- Hold a normalization key as a `SecretBytes`, or record why that failed. -/
def secretOrUnavailable (key : Bytes) (protect : Bool) (os : OsAnswers) : Normalizer :=
  match SecretBytes.new key protect os with
  | .ok secret => .keyed secret
  | .error _ =>
      .unavailable "could not create the protected mapping for the normalization key"

namespace KeyVaultBuilder

def new : KeyVaultBuilder := {}

def featureStandard (features : Features) (xof : Bytes → Nat → UInt8) : StandardFragmenter :=
  if features.decoySelfRef then .withDecoy .new SelfReferenceDecoy.strategy
  else if features.decoyKeyDerived then .withDecoy .new (KeyDerivedDecoy.strategy xof)
  else if features.decoyRandom then .withDecoy .new RandomDecoy.strategy
  else .new

def featureFragmenter (features : Features) (xof : Bytes → Nat → UInt8) :
    Result BuilderFragmenter := do
  if features.fragmentLayered then
    let layered ← LayeredFragmenter.new [(featureStandard features xof).strategy,
      InterleavedFragmenter.new.strategy, RandomFragmenter.new.strategy]
    return .custom layered.strategy
  else if features.fragmentRandom then return .custom RandomFragmenter.new.strategy
  else if features.fragmentInterleaved then return .custom InterleavedFragmenter.new.strategy
  else return .standard (featureStandard features xof)

def featureCodex (features : Features) (rng : Rng) : Result (Option Codex) :=
  if features.codex then (DynamicCodex.new rng).map fun out => some ⟨out.1.encode, out.1.decode⟩
  else .ok none

/-- `LogAudit` is not a no-op; it comes with `monitor-tracing`. -/
def fromFeatures (features : Features) (xof : Bytes → Nat → UInt8) (rng : Rng) :
    Result KeyVaultBuilder := do
  let fragmenter ← featureFragmenter features xof
  let codex ← featureCodex features rng
  return { new with
    fragmenter := fragmenter
    codex := codex
    audit := if features.monitorTracing && features.audit then some ⟨false⟩ else none }

variable (b : KeyVaultBuilder)

def isCustom : BuilderFragmenter → Bool
  | .standard _ => false
  | .custom _ => true

def decoyIgnored : Bool :=
  (b.decoySet && isCustom b.fragmenter) || b.decoyWithoutStandard

def normalizeWithBlake3 (enabled : Bool) : KeyVaultBuilder :=
  { b with keyNormalization := enabled }

def withKeyedNormalization : KeyVaultBuilder :=
  { b with
    keyNormalization := true
    keyedNormalization := true
    normalizationKey := .random }

def withNormalizationKey (blake3 : Blake3) (key : Bytes) : KeyVaultBuilder :=
  { b with
    keyNormalization := true
    keyedNormalization := true
    normalizationKey := .derived (blake3.deriveKey normalizationKeyContext key) }

def withFragmenter (strategy : FragmentStrategy) : KeyVaultBuilder :=
  { b with fragmenter := .custom strategy }

def withChunkRange (low high : Usize) : KeyVaultBuilder :=
  { b with
    fragmenter := .standard (.withChunkRange low high)
    decoySet := false
    decoyWithoutStandard := false }

def withCodex (codex : Codex) : KeyVaultBuilder := { b with codex := some codex }

def withDecoy (decoy : DecoyStrategy) : KeyVaultBuilder :=
  match b.fragmenter with
  | .standard standard =>
      { b with
        fragmenter := .standard (standard.withDecoy decoy)
        decoySet := true }
  | .custom strategy =>
      { b with
        fragmenter := .custom strategy
        decoyWithoutStandard := true
        decoySet := true }

def withFailureThreshold (max : UInt32) (window : Duration) : KeyVaultBuilder :=
  { b with config := { b.config with maxFailuresBeforeLockout := max, failureWindow := window } }

def withKeyLockout (max : UInt32) (window : Duration) (lockFor : Option Duration) :
    KeyVaultBuilder :=
  { b with
    config := { b.config with
      keyLockoutThreshold := max
      keyLockoutWindow := window
      keyLockoutDuration := lockFor } }

def withMasterUnlockBackoff (base max : Duration) : KeyVaultBuilder :=
  { b with
    config := { b.config with
      masterBackoffBase := base
      masterBackoffMax := Nat.max max base } }

def withPageProtection (enabled : Bool) : KeyVaultBuilder :=
  { b with config := { b.config with pageProtection := enabled } }

def withAuditSink (sink : AuditSink) : KeyVaultBuilder := { b with audit := some sink }

/-- What `with_master_key` keeps of a credential. -/
def masterSeed (blake3 : Blake3) (master : Bytes) (rng : Rng) : MasterSeed :=
  match hfill : rng.fill 32 with
  | .ok (hashKey, _) =>
      .ok (hashKey ++
        (blake3.keyed ⟨hashKey.toArray, by simpa using length_of_fill hfill⟩ master).toList)
  | .error _ => .error "RNG failed while setting up the master key verifier"

def withMasterKey (blake3 : Blake3) (master : Bytes) (rng : Rng) : KeyVaultBuilder :=
  { b with master := some (masterSeed blake3 master rng) }

/-- The `normalizer` field of the finished vault. -/
def normalizer (rng : Rng) (os : OsAnswers) : Normalizer :=
  if b.keyNormalization then
    match b.normalizationKey with
    | .none => .plain
    | .random =>
        match rng.fill 32 with
        | .ok (key, _) => secretOrUnavailable key b.config.pageProtection os
        | .error _ => .unavailable "RNG failed while creating the normalization key"
    | .derived key => secretOrUnavailable key.toList b.config.pageProtection os
  else .off

def masterVerifier (protect : Bool) (os : OsAnswers) : MasterSeed → MasterVerifier
  | .ok stored =>
      match SecretBytes.new stored protect os with
      | .ok secret => .ready secret
      | .error _ =>
          .unavailable "could not create the protected mapping for the master key verifier"
  | .error reason => .unavailable reason

def strategy : BuilderFragmenter → FragmentStrategy
  | .standard fragmenter => fragmenter.strategy
  | .custom strategy => strategy

/-- What the machine and the libraries contribute when a builder is finished. -/
structure Finishing where
  blake3 : Blake3
  usizeBits : Nat
  rng : Rng
  normalizerOs : OsAnswers
  masterOs : OsAnswers

def finish (given : Finishing) : Environment where
  config := b.config
  fragmenter := strategy b.fragmenter
  normalizer := b.normalizer given.rng given.normalizerOs
  codex := b.codex
  master := b.master.map (masterVerifier b.config.pageProtection given.masterOs)
  auditIsNoOp := (b.audit.getD ⟨true⟩).isNoOp
  blake3 := given.blake3.hash
  blake3Keyed := given.blake3.keyed
  usizeBits := given.usizeBits

end KeyVaultBuilder

inductive BuilderCall where
  | normalizeWithBlake3 (enabled : Bool)
  | withKeyedNormalization
  | withNormalizationKey (key : Bytes)
  | withFragmenter (strategy : FragmentStrategy)
  | withChunkRange (low high : Usize)
  | withCodex (codex : Codex)
  | withDecoy (decoy : DecoyStrategy)
  | withFailureThreshold (max : UInt32) (window : Duration)
  | withKeyLockout (max : UInt32) (window : Duration) (lockFor : Option Duration)
  | withMasterUnlockBackoff (base max : Duration)
  | withPageProtection (enabled : Bool)
  | withAuditSink (sink : AuditSink)
  | withMasterKey (master : Bytes) (rng : Rng)

def KeyVaultBuilder.apply (blake3 : Blake3) (b : KeyVaultBuilder) : BuilderCall → KeyVaultBuilder
  | .normalizeWithBlake3 enabled => b.normalizeWithBlake3 enabled
  | .withKeyedNormalization => b.withKeyedNormalization
  | .withNormalizationKey key => b.withNormalizationKey blake3 key
  | .withFragmenter strategy => b.withFragmenter strategy
  | .withChunkRange low high => b.withChunkRange low high
  | .withCodex codex => b.withCodex codex
  | .withDecoy decoy => b.withDecoy decoy
  | .withFailureThreshold max window => b.withFailureThreshold max window
  | .withKeyLockout max window lockFor => b.withKeyLockout max window lockFor
  | .withMasterUnlockBackoff base max => b.withMasterUnlockBackoff base max
  | .withPageProtection enabled => b.withPageProtection enabled
  | .withAuditSink sink => b.withAuditSink sink
  | .withMasterKey master rng => b.withMasterKey blake3 master rng

abbrev KeyVaultBuilder.after (blake3 : Blake3) (start : KeyVaultBuilder) (calls : List BuilderCall) :
    KeyVaultBuilder :=
  calls.foldl (KeyVaultBuilder.apply blake3) start

/-! ### What a sequence of setter calls adds up to -/

namespace BuilderCall

/-- Each function below says what a call writes to one choice, if it touches it. -/
def switches : BuilderCall → Option Bool
  | .normalizeWithBlake3 enabled => some enabled
  | .withKeyedNormalization | .withNormalizationKey _ => some true
  | _ => none

def choosesKey (blake3 : Blake3) : BuilderCall → Option NormalizationKey
  | .withKeyedNormalization => some .random
  | .withNormalizationKey key =>
      some (.derived (blake3.deriveKey normalizationKeyContext key))
  | _ => none

def protects : BuilderCall → Option Bool
  | .withPageProtection enabled => some enabled
  | _ => none

def setsMaster (blake3 : Blake3) : BuilderCall → Option (Option MasterSeed)
  | .withMasterKey master rng => some (some (KeyVaultBuilder.masterSeed blake3 master rng))
  | _ => none

def choosesFragmenter : BuilderCall → Option BuilderFragmenter
  | .withFragmenter strategy => some (.custom strategy)
  | .withChunkRange low high => some (.standard (.withChunkRange low high))
  | _ => none

def choosesDecoy : BuilderCall → Option (Option DecoyStrategy)
  | .withDecoy decoy => some (some decoy)
  | .withChunkRange _ _ => some none
  | _ => none

def asksDecoy : BuilderCall → Option Bool
  | .withDecoy _ => some true
  | .withChunkRange _ _ => some false
  | _ => none

end BuilderCall

namespace KeyVaultBuilder

variable {blake3 : Blake3} (b : KeyVaultBuilder)

@[simp] theorem withDecoy_keyNormalization (decoy : DecoyStrategy) :
    (b.withDecoy decoy).keyNormalization = b.keyNormalization := by
  unfold withDecoy
  split <;> rfl

@[simp] theorem withDecoy_keyedNormalization (decoy : DecoyStrategy) :
    (b.withDecoy decoy).keyedNormalization = b.keyedNormalization := by
  unfold withDecoy
  split <;> rfl

@[simp] theorem withDecoy_normalizationKey (decoy : DecoyStrategy) :
    (b.withDecoy decoy).normalizationKey = b.normalizationKey := by
  unfold withDecoy
  split <;> rfl

@[simp] theorem withDecoy_config (decoy : DecoyStrategy) :
    (b.withDecoy decoy).config = b.config := by
  unfold withDecoy
  split <;> rfl

@[simp] theorem withDecoy_master (decoy : DecoyStrategy) :
    (b.withDecoy decoy).master = b.master := by
  unfold withDecoy
  split <;> rfl

@[simp] theorem withDecoy_codex (decoy : DecoyStrategy) :
    (b.withDecoy decoy).codex = b.codex := by
  unfold withDecoy
  split <;> rfl

theorem keyNormalization_after (calls : List BuilderCall) :
    (b.after blake3 calls).keyNormalization =
      lastWrite BuilderCall.switches b.keyNormalization calls := by
  refine view_foldl keyNormalization (fun b call => ?_) b calls
  cases call with
  | withDecoy decoy => exact b.withDecoy_keyNormalization decoy
  | _ => rfl

theorem normalizationKey_after (calls : List BuilderCall) :
    (b.after blake3 calls).normalizationKey =
      lastWrite (BuilderCall.choosesKey blake3) b.normalizationKey calls := by
  refine view_foldl normalizationKey (fun b call => ?_) b calls
  cases call with
  | withDecoy decoy => exact b.withDecoy_normalizationKey decoy
  | _ => rfl

theorem pageProtection_after (calls : List BuilderCall) :
    (b.after blake3 calls).config.pageProtection =
      lastWrite BuilderCall.protects b.config.pageProtection calls := by
  refine view_foldl (fun b => b.config.pageProtection) (fun b call => ?_) b calls
  cases call with
  | withDecoy decoy => exact congrArg VaultConfig.pageProtection (b.withDecoy_config decoy)
  | _ => rfl

theorem master_after (calls : List BuilderCall) :
    (b.after blake3 calls).master = lastWrite (BuilderCall.setsMaster blake3) b.master calls := by
  refine view_foldl master (fun b call => ?_) b calls
  cases call with
  | withDecoy decoy => exact b.withDecoy_master decoy
  | _ => rfl

/-- Put the decoy into the standard fragmenter; another strategy has no place for it. -/
def withDecoyIn : BuilderFragmenter → Option DecoyStrategy → BuilderFragmenter
  | .standard fragmenter, decoy => .standard { fragmenter with decoy := decoy }
  | .custom strategy, _ => .custom strategy

def decoyOf : BuilderFragmenter → Option DecoyStrategy
  | .standard fragmenter => fragmenter.decoy
  | .custom _ => none

@[simp] theorem withDecoyIn_decoyOf (fragmenter : BuilderFragmenter) :
    withDecoyIn fragmenter (decoyOf fragmenter) = fragmenter := by
  cases fragmenter <;> rfl

theorem isCustom_withDecoyIn (fragmenter : BuilderFragmenter) (decoy : Option DecoyStrategy) :
    isCustom (withDecoyIn fragmenter decoy) = isCustom fragmenter := by
  cases fragmenter <;> rfl

theorem fragmenter_withDecoy (decoy : DecoyStrategy) :
    (b.withDecoy decoy).fragmenter = withDecoyIn b.fragmenter (some decoy) := by
  unfold withDecoy withDecoyIn StandardFragmenter.withDecoy
  cases b.fragmenter <;> rfl

theorem withDecoyIn_withDecoyIn (fragmenter : BuilderFragmenter)
    (decoy later : Option DecoyStrategy) :
    withDecoyIn (withDecoyIn fragmenter decoy) later = withDecoyIn fragmenter later := by
  cases fragmenter <;> rfl

/-- The fragmenter that is built: the last one chosen, with the last decoy asked for
since its chunk range was set. -/
theorem fragmenter_after (calls : List BuilderCall) :
    (b.after blake3 calls).fragmenter =
      withDecoyIn (lastWrite BuilderCall.choosesFragmenter b.fragmenter calls)
        (lastWrite BuilderCall.choosesDecoy (decoyOf b.fragmenter) calls) := by
  induction calls using List.reverseRecOn with
  | nil => exact (withDecoyIn_decoyOf b.fragmenter).symm
  | append_singleton calls call ih =>
    rw [lastWrite_snoc, lastWrite_snoc]
    unfold after at ih ⊢
    rw [List.foldl_append]
    show (apply blake3 _ call).fragmenter = _
    cases call with
    | withDecoy decoy =>
      refine (fragmenter_withDecoy _ decoy).trans ?_
      rw [ih, withDecoyIn_withDecoyIn]
      rfl
    | withFragmenter strategy => rfl
    | withChunkRange low high => rfl
    | _ => exact ih

/-- The second flag is only up where the first one would report the decoy as well. -/
def FlagsAgree : Prop :=
  b.decoyWithoutStandard = true → b.decoySet = true ∧ isCustom b.fragmenter = true

theorem decoyIgnored_of_flagsAgree {b : KeyVaultBuilder} (h : b.FlagsAgree) :
    b.decoyIgnored = (b.decoySet && isCustom b.fragmenter) := by
  unfold decoyIgnored
  cases hwithout : b.decoyWithoutStandard with
  | false => rw [Bool.or_false]
  | true =>
    obtain ⟨hset, hcustom⟩ := h hwithout
    rw [hset, hcustom]
    rfl

theorem flagsAgree_apply {b : KeyVaultBuilder} (h : b.FlagsAgree) (call : BuilderCall) :
    (b.apply blake3 call).FlagsAgree := by
  cases call with
  | withDecoy decoy =>
    show (b.withDecoy decoy).FlagsAgree
    unfold FlagsAgree withDecoy
    cases hfragmenter : b.fragmenter with
    | standard fragmenter =>
      intro hwithout
      obtain ⟨-, hcustom⟩ := h hwithout
      rw [hfragmenter] at hcustom
      cases hcustom
    | custom strategy => exact fun _ => ⟨rfl, rfl⟩
  | withFragmenter strategy => exact fun hwithout => ⟨(h hwithout).1, rfl⟩
  | withChunkRange low high =>
    intro hwithout
    cases hwithout
  | _ => exact h

theorem flagsAgree_after {b : KeyVaultBuilder} (h : b.FlagsAgree) (calls : List BuilderCall) :
    (b.after blake3 calls).FlagsAgree := by
  induction calls generalizing b with
  | nil => exact h
  | cons call calls ih => exact ih (flagsAgree_apply h call)

theorem decoySet_after (calls : List BuilderCall) :
    (b.after blake3 calls).decoySet = lastWrite BuilderCall.asksDecoy b.decoySet calls := by
  refine view_foldl decoySet (fun b call => ?_) b calls
  cases call with
  | withDecoy decoy =>
    show (b.withDecoy decoy).decoySet = true
    unfold withDecoy
    split <;> rfl
  | _ => rfl

/-! ### Where a builder starts -/

inductive Started : KeyVaultBuilder → Prop
  | new : Started new
  | fromFeatures {features : Features} {xof : Bytes → Nat → UInt8} {rng : Rng}
      {b : KeyVaultBuilder} (h : fromFeatures features xof rng = .ok b) : Started b

/-- What `from_features` leaves as `new` has it. -/
structure Untouched (b : KeyVaultBuilder) : Prop where
  keyNormalization : b.keyNormalization = true
  keyedNormalization : b.keyedNormalization = false
  normalizationKey : b.normalizationKey = .none
  pageProtection : b.config.pageProtection = false
  master : b.master = none
  decoySet : b.decoySet = false
  flagsAgree : b.FlagsAgree

theorem Started.untouched {b : KeyVaultBuilder} (h : Started b) : b.Untouched := by
  cases h with
  | new => exact ⟨rfl, rfl, rfl, rfl, rfl, rfl, fun h => by cases h⟩
  | fromFeatures h =>
    unfold KeyVaultBuilder.fromFeatures at h
    obtain ⟨fragmenter, -, h⟩ := bind_eq_ok.mp h
    obtain ⟨codex, -, h⟩ := bind_eq_ok.mp h
    cases h
    exact ⟨rfl, rfl, rfl, rfl, rfl, rfl, fun h => by cases h⟩

theorem keyedNormalization_iff {b : KeyVaultBuilder} (hstart : Started b)
    (calls : List BuilderCall) : (b.after blake3 calls).keyedNormalization = true ↔
      (b.after blake3 calls).normalizationKey ≠ .none := by
  have hagrees : b.keyedNormalization = true ↔ b.normalizationKey ≠ .none := by
    rw [hstart.untouched.keyedNormalization, hstart.untouched.normalizationKey]
    simp
  clear hstart
  induction calls generalizing b with
  | nil => exact hagrees
  | cons call calls ih =>
    refine ih ?_
    cases call with
    | withKeyedNormalization => exact iff_of_true rfl nofun
    | withNormalizationKey key => exact iff_of_true rfl nofun
    | withDecoy decoy =>
      show (b.withDecoy decoy).keyedNormalization = true ↔ (b.withDecoy decoy).normalizationKey ≠ .none
      rw [withDecoy_keyedNormalization, withDecoy_normalizationKey]
      exact hagrees
    | _ => exact hagrees

theorem asked_eq (calls : List BuilderCall) : lastWrite BuilderCall.asksDecoy false calls =
    (lastWrite BuilderCall.choosesDecoy none calls).isSome := by
  refine (view_foldl Option.isSome (fun decoy call => ?_) none calls).symm
  cases call <;> rfl

theorem decoyIgnored_after {b : KeyVaultBuilder} (hstart : Started b) (calls : List BuilderCall) :
    (b.after blake3 calls).decoyIgnored =
      ((lastWrite BuilderCall.choosesDecoy none calls).isSome &&
        isCustom (lastWrite BuilderCall.choosesFragmenter b.fragmenter calls)) := by
  have huntouched := hstart.untouched
  rw [decoyIgnored_of_flagsAgree (flagsAgree_after huntouched.flagsAgree calls), decoySet_after,
    fragmenter_after, isCustom_withDecoyIn, huntouched.decoySet, asked_eq]

theorem decoyOf_withDecoyIn (fragmenter : BuilderFragmenter) (decoy : Option DecoyStrategy) :
    decoyOf (withDecoyIn fragmenter decoy) = if isCustom fragmenter then none else decoy := by
  cases fragmenter <;> rfl

/-- The vault runs the fragmenter chosen last, a standard one with the decoy asked for
last since its chunk range was set. A decoy that was asked for is in use exactly when
the builder does not report it as ignored, and no other decoy is ever reported. -/
theorem decoy_used_or_reported {b : KeyVaultBuilder} (hstart : Started b) (calls : List BuilderCall)
    (given : Finishing) :
    ((b.after given.blake3 calls).finish given).fragmenter =
      strategy (withDecoyIn (lastWrite BuilderCall.choosesFragmenter b.fragmenter calls)
        (lastWrite BuilderCall.choosesDecoy (decoyOf b.fragmenter) calls)) ∧
    ((b.after given.blake3 calls).decoyIgnored = true →
      ∃ decoy, lastWrite BuilderCall.choosesDecoy none calls = some decoy) ∧
    ∀ decoy, lastWrite BuilderCall.choosesDecoy none calls = some decoy →
      ((b.after given.blake3 calls).decoyIgnored = false ↔
        decoyOf (b.after given.blake3 calls).fragmenter = some decoy) := by
  refine ⟨congrArg strategy (fragmenter_after b calls), ?_⟩
  rw [decoyIgnored_after hstart, fragmenter_after, decoyOf_withDecoyIn]
  constructor
  · intro hignored
    exact Option.isSome_iff_exists.mp (Bool.and_elim_left hignored)
  · intro decoy hdecoy
    have hwritten : lastWrite BuilderCall.choosesDecoy (decoyOf b.fragmenter) calls = some decoy := by
      rw [← hdecoy]
      apply lastWrite_of_ne
      rw [hdecoy]
      exact Option.some_ne_none decoy
    rw [hdecoy, hwritten]
    cases isCustom (lastWrite BuilderCall.choosesFragmenter b.fragmenter calls) <;> simp

def firstByte : Blake3 where
  hash key := Vector.replicate 32 (key.headD 0)
  keyed secret key := Vector.replicate 32 (secret.head + key.headD 0)
  deriveKey _ key := Vector.replicate 32 (key.headD 0)

def calm : Finishing where
  blake3 := firstByte
  usizeBits := 64
  rng := .constant 7
  normalizerOs := ⟨true, true, true⟩
  masterOs := ⟨true, true, true⟩

theorem decoy_used_or_reported_custom :
    let calls := [.withDecoy RandomDecoy.strategy, .withFragmenter RandomFragmenter.new.strategy]
    (KeyVaultBuilder.new.after firstByte calls).decoyIgnored = true ∧
      decoyOf (KeyVaultBuilder.new.after firstByte calls).fragmenter ≠ some RandomDecoy.strategy := by
  intro calls
  have hiff := (decoy_used_or_reported .new calls calm).2.2 RandomDecoy.strategy rfl
  have hignored : (KeyVaultBuilder.new.after firstByte calls).decoyIgnored = true := rfl
  refine ⟨hignored, fun hused => ?_⟩
  have hdown := hiff.mpr hused
  rw [show calm.blake3 = firstByte from rfl, hignored] at hdown
  cases hdown

end KeyVaultBuilder

end KeyVault
