import KeyVault.KeyPath

/-! A fetch from a key file: the file is opened once, checked through the open handle
and read to its end. Every refusal names the file fetcher as its source. -/
namespace KeyVault

/-- An open file: what `fstat` says of it, and where reading it stands. -/
structure OpenFile (σ : Type) where
  metadata : Except ErrorKind Metadata
  state : σ

structure Checks where
  file : Bool
  dirs : Bool

def Checks.none : Checks := ⟨false, false⟩

structure FileFetch where
  path : PathBuf
  strictPerms : Bool
  checkDirs : Bool

namespace FileFetch

def new (path : PathBuf) : FileFetch := ⟨path, true, true⟩

def allowLoosePerms (f : FileFetch) : FileFetch := { f with strictPerms := false }

def skipDirectoryCheck (f : FileFetch) : FileFetch := { f with checkDirs := false }

def checks (f : FileFetch) : Checks := if f.strictPerms then ⟨true, f.checkDirs⟩ else .none

end FileFetch

def checkPerms (fs : FileSystem) (opened : Except ErrorKind Metadata) (path : PathBuf)
    (checkDirs : Bool) (euid : Nat) : Result Unit := do
  let data ← orIoError path opened
  require (data.mode &&& 0o077 = 0) (rejected (path.text ++ " is too permissive (mode " ++
    octal (data.mode &&& 0o777) ++ "); expected 0600 or stricter"))
  checkOwner data.uid euid path.text "file"
  if checkDirs then checkDirectories fs path data euid else .ok ()

/-- The length to expect; `usize::try_from` keeps a `u64`. -/
def lengthHint : Except ErrorKind Metadata → Nat
  | .ok data => data.len
  | .error _ => 0

section Fetch

variable {σ : Type} (reader : Reader σ) (fs : FileSystem)

def readToEndWiping (file : OpenFile σ) (path : PathBuf) (fuel : Nat) : Option (Result Bytes) :=
  (readWiping reader (lengthHint file.metadata) path.text fuel file.state).1

def runChecks (file : OpenFile σ) (path : PathBuf) (checks : Checks) (euid : Nat) : Result Unit :=
  if checks.file then checkPerms fs file.metadata path checks.dirs euid else .ok ()

def readChecked (file : OpenFile σ) (path : PathBuf) (checks : Checks) (euid fuel : Nat) :
    Option (Result Bytes) :=
  match runChecks fs file path checks euid with
  | .error exit => some (.error exit)
  | .ok () => readToEndWiping reader file path fuel

/-- `opened` is what `File::open` answers. -/
def FileFetch.fetch (f : FileFetch) (opened : Except ErrorKind (OpenFile σ)) (euid fuel : Nat) :
    Option (Result Bytes) :=
  match orIoError f.path opened with
  | .error exit => some (.error exit)
  | .ok file => readChecked reader fs file f.path f.checks euid fuel

end Fetch

/-! ### Refusals -/

/-- Where it does not return, it returned an `Acquisition` error of the file fetcher. -/
def RefusesAsFile {α : Type} (outcome : Result α) : Prop :=
  ∀ exit, outcome = .error exit → ∃ reason, exit = .error (.acquisition "file" reason)

section Refusals

variable {α β : Type}

theorem refusesAsFile_ok (value : α) : RefusesAsFile (.ok value) := by
  intro exit h
  cases h

theorem refusesAsFile_fail (reason : String) :
    RefusesAsFile (fail (.acquisition "file" reason) : Result α) := by
  intro exit h
  cases h
  exact ⟨reason, rfl⟩

theorem RefusesAsFile.bind {outcome : Result α} {next : α → Result β}
    (h : RefusesAsFile outcome) (hnext : ∀ value, RefusesAsFile (next value)) :
    RefusesAsFile (outcome >>= next) := by
  cases outcome with
  | error exit =>
    obtain ⟨reason, rfl⟩ := h exit rfl
    exact refusesAsFile_fail reason
  | ok value => exact hnext value

theorem refusesAsFile_orIoError (path : PathBuf) (outcome : Except ErrorKind α) :
    RefusesAsFile (orIoError path outcome) := by
  cases outcome with
  | error kind => exact refusesAsFile_fail _
  | ok value => exact refusesAsFile_ok value

theorem refusesAsFile_require (condition : Prop) [Decidable condition] (reason : String) :
    RefusesAsFile (require condition (rejected reason)) := by
  unfold require
  split
  · exact refusesAsFile_ok ()
  · exact refusesAsFile_fail reason

theorem refusesAsFile_checkDirectory (fs : FileSystem) (dir : PathBuf) (euid : Nat) :
    RefusesAsFile (checkDirectory fs dir euid) :=
  (refusesAsFile_orIoError dir _).bind fun _ =>
    (refusesAsFile_require _ _).bind fun _ => refusesAsFile_require _ _

theorem refusesAsFile_checkEach (fs : FileSystem) (euid : Nat) (dirs : List (List String)) :
    RefusesAsFile (checkEach fs euid dirs) := by
  induction dirs with
  | nil => exact refusesAsFile_ok ()
  | cons dir dirs ih => exact (refusesAsFile_checkDirectory fs _ euid).bind fun _ => ih

theorem refusesAsFile_checkGivenParent (fs : FileSystem) (path : PathBuf)
    (resolved : List String) (euid : Nat) :
    RefusesAsFile (checkGivenParent fs path resolved euid) := by
  unfold checkGivenParent
  split
  · exact refusesAsFile_ok ()
  · split
    · exact refusesAsFile_ok ()
    · exact refusesAsFile_checkDirectory fs _ euid

theorem refusesAsFile_checkDirectories (fs : FileSystem) (path : PathBuf) (opened : Metadata)
    (euid : Nat) : RefusesAsFile (checkDirectories fs path opened euid) :=
  (refusesAsFile_orIoError path _).bind fun resolved =>
    (refusesAsFile_orIoError path _).bind fun _ =>
      (refusesAsFile_require _ _).bind fun _ =>
        (refusesAsFile_checkEach fs euid _).bind fun _ =>
          refusesAsFile_checkGivenParent fs path resolved euid

theorem refusesAsFile_checkPerms (fs : FileSystem) (opened : Except ErrorKind Metadata)
    (path : PathBuf) (checkDirs : Bool) (euid : Nat) :
    RefusesAsFile (checkPerms fs opened path checkDirs euid) := by
  refine (refusesAsFile_orIoError path opened).bind fun data => ?_
  refine (refusesAsFile_require _ _).bind fun _ => (refusesAsFile_require _ _).bind fun _ => ?_
  split
  · exact refusesAsFile_checkDirectories fs path data euid
  · exact refusesAsFile_ok ()

end Refusals

/-! ### Fetching -/

/-- What the fetcher asks of an open file before it reads it. -/
def FileFetch.Permits (f : FileFetch) (fs : FileSystem) (opened : Except ErrorKind Metadata)
    (euid : Nat) : Prop :=
  f.strictPerms = true → ∃ data, opened = .ok data ∧ data.mode &&& 0o077 = 0 ∧
    (data.uid = euid ∨ data.uid = 0) ∧
    (f.checkDirs = true → ∃ found, Passes fs f.path data euid found)

section Permits

variable {σ : Type} {fs : FileSystem} {euid : Nat}

theorem checkPerms_eq_ok {opened : Except ErrorKind Metadata} {path : PathBuf} {checkDirs : Bool} :
    checkPerms fs opened path checkDirs euid = .ok () ↔
      ∃ data, opened = .ok data ∧ data.mode &&& 0o077 = 0 ∧ (data.uid = euid ∨ data.uid = 0) ∧
        (checkDirs = true → ∃ found, Passes fs path data euid found) := by
  simp only [checkPerms, checkOwner, bind_eq_ok, orIoError_eq_ok, require_eq_ok]
  cases checkDirs with
  | false => simp
  | true => simp [checkDirectories_eq_ok]

theorem runChecks_eq_ok (f : FileFetch) {file : OpenFile σ} :
    runChecks fs file f.path f.checks euid = .ok () ↔ f.Permits fs file.metadata euid := by
  unfold runChecks FileFetch.checks FileFetch.Permits
  cases f.strictPerms with
  | false => simp [Checks.none]
  | true => simp [checkPerms_eq_ok]

theorem refusesAsFile_runChecks (file : OpenFile σ) (path : PathBuf) (checks : Checks) :
    RefusesAsFile (runChecks fs file path checks euid) := by
  unfold runChecks
  split
  · exact refusesAsFile_checkPerms fs _ path _ euid
  · exact refusesAsFile_ok ()

/-- A fetch ends: with the whole file or the error that cut the reading short, when
the file is permitted, and with an `Acquisition` error of the fetcher when it is not. -/
theorem fetch_ends (f : FileFetch) (reader : Reader σ) {file : OpenFile σ} {stream : Bytes}
    {ending : StreamEnd} (hroom : Roomy (lengthHint file.metadata) stream.length)
    (hdelivers : Delivers reader file.state stream ending) : ∃ fuel, ∀ more, fuel ≤ more →
      (f.Permits fs file.metadata euid →
        f.fetch reader fs (.ok file) euid more = some (ending.result f.path.text stream)) ∧
      (¬ f.Permits fs file.metadata euid → ∃ reason,
        f.fetch reader fs (.ok file) euid more =
          some (.error (.error (.acquisition "file" reason)))) := by
  obtain ⟨fuel, log, hread⟩ := (readWiping_returns reader f.path.text hroom hdelivers).1
  refine ⟨fuel, fun more hmore => ?_⟩
  rw [← runChecks_eq_ok]
  have hrefuses : RefusesAsFile (runChecks fs file f.path f.checks euid) :=
    refusesAsFile_runChecks file f.path f.checks
  have hfetch : f.fetch reader fs (.ok file) euid more =
      readChecked reader fs file f.path f.checks euid more := rfl
  rw [hfetch]
  unfold readChecked readToEndWiping
  cases hchecks : runChecks fs file f.path f.checks euid with
  | error exit =>
    obtain ⟨reason, rfl⟩ := hrefuses exit hchecks
    simp
  | ok _ => simp [hread more hmore]

end Permits

end KeyVault
