import KeyVault.LayeredFragmenter
import KeyVault.Registry

/-! What happens to key bytes: the pipeline that stores a key, and what reading the
stored fragments gives back. -/
namespace KeyVault

open Interleaving

/-- What the vault asks of a fragmentation strategy: filling a buffer gives back
the key, from the fragments themselves and from a page-protected copy. -/
structure FragmentStrategy.Reliable (s : FragmentStrategy) : Prop where
  totalLen : ∀ key rng f rng', s.fragment key rng = .ok (f, rng') → f.totalLen = key.length
  owned : ∀ key rng f rng' (out : Bytes), s.fragment key rng = .ok (f, rng') →
    out.length = key.length → s.defragmentInto f out = (.ok (), key)
  protect : ∀ key rng f rng' os g (out : Bytes), s.fragment key rng = .ok (f, rng') →
    f.intoProtected os = .ok g → out.length = key.length →
    s.defragmentInto g out = (.ok (), key)

theorem Builtin.reliable {s : FragmentStrategy} (h : Builtin s) : s.Reliable where
  totalLen := by
    intro key rng f rng' hfragment
    exact (h.roundTrips key rng f rng' hfragment f ⟨rfl, rfl, rfl⟩).1
  owned := by
    intro key rng f rng' out hfragment hout
    exact (h.roundTrips key rng f rng' hfragment f ⟨rfl, rfl, rfl⟩).2.2 out hout
  protect := by
    intro key rng f rng' os g out hfragment hprotect hout
    exact (h.roundTrips key rng f rng' hfragment g
      (Fragments.intoProtected_sameView hprotect)).2.2 out hout

def Codex.Undone (codex : Codex) : Prop := ∀ byte, codex.decode (codex.encode byte) = byte

def Environment.CodexUndone (env : Environment) : Prop := ∀ codex ∈ env.codex, codex.Undone

def SecretBytes.bytes (secret : SecretBytes) : Bytes := (secret.fragments.chunk 0).getD []

/-- The key itself, its BLAKE3 digest, or its digest keyed with the vault's secret. -/
def normalForm (env : Environment) (key : Bytes) : Result Bytes :=
  match env.normalizer with
  | .off => .ok key
  | .plain => .ok (env.blake3 key).toList
  | .keyed secret =>
      if h : secret.bytes.length = 32 then
        .ok (env.blake3Keyed ⟨secret.bytes.toArray, by simpa using h⟩ key).toList
      else fail (.internal "normalization key has the wrong length")
  | .unavailable reason => fail (.internal reason)

theorem SecretBytes.read_eq_ok {secret : SecretBytes} {opens : Bool} {bytes : Bytes} :
    secret.read opens = .ok bytes ↔ secret.fragments.open opens = .ok () ∧ bytes = secret.bytes := by
  unfold SecretBytes.read SecretBytes.bytes
  cases secret.fragments.open opens with
  | error exit => simp [bind, Except.bind]
  | ok granted => simp [bind, Except.bind, pure, Except.pure, eq_comm]

theorem normalize_true (env : Environment) (key : Bytes) :
    normalize env true key = normalForm env key := by
  unfold normalize normalForm
  cases env.normalizer with
  | keyed secret =>
    have hread : secret.read true = .ok secret.bytes :=
      SecretBytes.read_eq_ok.mpr ⟨Fragments.open_true _, rfl⟩
    dsimp only
    rw [hread]
  | _ => rfl

/-- Where the pages of the secret cannot be read there is no result at all. -/
theorem normalize_eq_normalForm {env : Environment} {opens : Bool} {key working : Bytes}
    (h : normalize env opens key = .ok working) : normalForm env key = .ok working := by
  unfold normalize normalForm at *
  cases hnormalizer : env.normalizer with
  | keyed secret =>
    rw [hnormalizer] at h
    dsimp only at h
    cases hread : secret.read opens with
    | error exit =>
      rw [hread] at h
      cases h
    | ok bytes =>
      obtain ⟨-, rfl⟩ := SecretBytes.read_eq_ok.mp hread
      rw [hread] at h
      exact h
  | _ =>
    rw [hnormalizer] at h
    exact h

def encodedBytes (env : Environment) (working : Bytes) : Bytes :=
  match env.codex with
  | some codex => codexApply codex working
  | none => working

theorem fragmentPipeline_ok {env : Environment} {os : OsAnswers} {key : Bytes} {rng rng' : Rng}
    {fragments : Fragments} (h : fragmentPipeline env os key rng = .ok (fragments, rng')) :
    ∃ working, normalForm env key = .ok working ∧
      env.fragmenter.fragment (encodedBytes env working) rng = .ok (fragments, rng') := by
  obtain ⟨working, hworking, hfragment⟩ := bind_eq_ok.mp h
  exact ⟨working, normalize_eq_normalForm hworking, hfragment⟩

theorem map_decode_encode {codex : Codex} (h : codex.Undone) (bytes : Bytes) :
    codexDecodeInPlace codex (codexApply codex bytes) = bytes := by
  unfold codexDecodeInPlace codexApply
  rw [List.map_map]
  have hid : codex.decode ∘ codex.encode = id := funext h
  rw [hid, List.map_id]

/-- `fragments` hold `key` for the vault. -/
def Stores (env : Environment) (fragments : Fragments) (key : Bytes) : Prop :=
  ∃ os rng, fragmentForRegistry env os key rng = .ok fragments

theorem length_take_ensureLen (scratch : Bytes) (length : Nat) :
    ((ensureLen scratch length).take length).length = length := by
  unfold ensureLen
  rw [List.length_take]
  split
  · omega
  · rw [List.length_replicate, Nat.min_self]

theorem reassemble_of_filled {env : Environment} {fragments : Fragments} {opens : Bool}
    {out working : Bytes} (hcodex : env.CodexUndone)
    (hopen : (if env.config.pageProtection then fragments.open opens else .ok ()) = .ok ())
    (hfilled : env.fragmenter.defragmentInto fragments out =
      (.ok (), encodedBytes env working)) :
    reassemble env fragments opens out = (.ok (), working) := by
  unfold reassemble
  rw [hopen]
  dsimp only
  rw [hfilled]
  unfold encodedBytes
  cases hconfigured : env.codex with
  | none => rfl
  | some codex =>
    dsimp only
    rw [map_decode_encode (hcodex codex hconfigured)]

theorem readKey_of_reassemble {env : Environment} {fragments : Fragments} {opens : Bool}
    {scratch : Bytes} {outcome : Result Unit} {out : Bytes}
    (h : reassemble env fragments opens
      ((ensureLen scratch fragments.totalLen).take fragments.totalLen) = (outcome, out)) :
    (readKey env fragments opens scratch id).1 = outcome.map fun _ => out := by
  unfold readKey
  dsimp only
  rw [h]
  cases outcome <;> rfl

/-- Reading stored fragments gives the normalized key, unless the operating system
refuses to make a protected key readable. -/
theorem readKey_of_stores {env : Environment} {fragments : Fragments} {key : Bytes}
    (hcodex : env.CodexUndone) (hfragmenter : env.fragmenter.Reliable)
    (h : Stores env fragments key) (opens : Bool) (scratch : Bytes) :
    ∃ working, normalForm env key = .ok working ∧
      ((readKey env fragments opens scratch id).1 = .ok working ∨
        opens = false ∧ (readKey env fragments opens scratch id).1 =
          fail (.memoryLock "could not make the key's pages readable")) := by
  obtain ⟨os, rng, hregistry⟩ := h
  simp only [fragmentForRegistry, bind_eq_ok, Prod.exists] at hregistry
  obtain ⟨owned, rng', hpipeline, hstored⟩ := hregistry
  obtain ⟨working, hworking, hfragment⟩ := fragmentPipeline_ok hpipeline
  have htotal := hfragmenter.totalLen _ _ _ _ hfragment
  refine ⟨working, hworking, ?_⟩
  by_cases hprotection : env.config.pageProtection = true
  · rw [if_pos hprotection] at hstored
    obtain ⟨-, -, hsame⟩ := Fragments.intoProtected_sameView hstored
    have hlength := length_take_ensureLen scratch fragments.totalLen
    have hfilled := hfragmenter.protect _ _ _ _ _ _
      ((ensureLen scratch fragments.totalLen).take fragments.totalLen) hfragment hstored
      (by rw [hlength, ← hsame, htotal])
    cases hopen : fragments.open opens with
    | ok granted =>
      left
      rw [readKey_of_reassemble (reassemble_of_filled hcodex (by rw [if_pos hprotection, hopen])
        hfilled)]
      rfl
    | error exit =>
      right
      obtain ⟨rfl, rfl⟩ := Fragments.open_eq_error hopen
      refine ⟨rfl, ?_⟩
      have hrefused : reassemble env fragments false
          ((ensureLen scratch fragments.totalLen).take fragments.totalLen) =
          (fail (.memoryLock "could not make the key's pages readable"),
            (ensureLen scratch fragments.totalLen).take fragments.totalLen) := by
        unfold reassemble
        rw [if_pos hprotection, hopen]
        rfl
      rw [readKey_of_reassemble hrefused]
      rfl
  · rw [if_neg hprotection] at hstored
    cases hstored
    left
    have hfilled := hfragmenter.owned _ _ _ _
      ((ensureLen scratch fragments.totalLen).take fragments.totalLen) hfragment
      (by rw [length_take_ensureLen, htotal])
    rw [readKey_of_reassemble (reassemble_of_filled hcodex (by rw [if_neg hprotection]) hfilled)]
    rfl

end KeyVault
