import KeyVault.FileTree
import KeyVault.KeyFile

/-! The checks of a key file's path. The check walks up from the place the path
resolves to and looks at the directory of the path as given; a lookup goes through
more directories than these as soon as it meets a link or `..`. -/
namespace KeyVault

open FileTree

structure Metadata where
  uid : Nat
  mode : Nat
  dev : Nat
  ino : Nat
  len : Nat
deriving DecidableEq, Repr

/-- A path with the text `display` prints for it. -/
structure PathBuf where
  text : String
  path : FileTree.Path String
deriving DecidableEq, Repr

/-- What the process sees of the file system, which does not change meanwhile. -/
structure FileSystem where
  tree : Tree String Metadata
  cwd : List String
  cwd_isDirectory : tree.IsDirectory cwd
  linkLimit : Nat

def octal (value : Nat) : String := String.ofList (Nat.toDigits 8 value)

def failureKind : Failure → ErrorKind
  | .missing => .notFound
  | .notDirectory => .notADirectory
  | .tooManyLinks => .filesystemLoop

def componentText : Component String → String
  | .parent => ".."
  | .name name => name

def absoluteText (components : List (Component String)) : String :=
  "/" ++ "/".intercalate (components.map componentText)

def PathBuf.ofPlace (place : List String) : PathBuf :=
  ⟨absoluteText (place.map .name), true, place.map .name⟩

namespace FileSystem

variable (fs : FileSystem)

def resolve (path : FileTree.Path String) : Except Failure (Found String) :=
  fs.tree.walk fs.linkLimit (path.start fs.cwd) path.components

def lookedUp (path : FileTree.Path String) : List (List String) :=
  match fs.resolve path with
  | .ok found => found.looked
  | .error _ => []

def canonicalize (path : PathBuf) : Except ErrorKind (List String) :=
  match fs.resolve path.path with
  | .ok found => .ok found.place
  | .error failure => .error (failureKind failure)

def metadata (path : PathBuf) : Except ErrorKind Metadata :=
  match fs.canonicalize path with
  | .error kind => .error kind
  | .ok place =>
      match fs.tree.node place with
      | some (.file data) => .ok data
      | some (.directory data) => .ok data
      | _ => .error .notFound

/-- `std::path::absolute`: `..` stays. -/
def absolute (path : FileTree.Path String) : List (Component String) :=
  if path.absolute then path.components else fs.cwd.map .name ++ path.components

/-- `absolute(path)` without its last component, if it has one. -/
def givenParent (path : FileTree.Path String) : Option PathBuf :=
  if fs.absolute path = [] then none
  else some ⟨absoluteText (fs.absolute path).dropLast, true, (fs.absolute path).dropLast⟩

end FileSystem

/-- `map_err(|e| io_error(path, &e))`. -/
def orIoError {α : Type} (path : PathBuf) : Except ErrorKind α → Result α
  | .ok value => .ok value
  | .error kind => fail (ioError path.text kind)

def rejected (reason : String) : Error := .acquisition "file" reason

def checkOwner (owner euid : Nat) (what kind : String) : Result Unit :=
  require (owner = euid ∨ owner = 0) (rejected (kind ++ " " ++ what ++ " is owned by uid " ++
    toString owner ++ "; expected uid " ++ toString euid ++ " (the process user) or root"))

def writableByOthers (mode : Nat) : Prop := mode &&& 0o022 ≠ 0

def isSticky (mode : Nat) : Prop := mode &&& 0o1000 ≠ 0

instance (mode : Nat) : Decidable (writableByOthers mode) := inferInstanceAs (Decidable (_ ≠ _))

instance (mode : Nat) : Decidable (isSticky mode) := inferInstanceAs (Decidable (_ ≠ _))

def checkDirectory (fs : FileSystem) (dir : PathBuf) (euid : Nat) : Result Unit := do
  let data ← orIoError dir (fs.metadata dir)
  checkOwner data.uid euid dir.text "directory"
  require (¬ (writableByOthers data.mode ∧ ¬ isSticky data.mode)) (rejected ("directory " ++
    dir.text ++ " is writable by group or others (mode " ++ octal (data.mode &&& 0o7777) ++
    "), so the key file could be replaced"))

def checkEach (fs : FileSystem) (euid : Nat) : List (List String) → Result Unit
  | [] => .ok ()
  | dir :: dirs => do
      checkDirectory fs (.ofPlace dir) euid
      checkEach fs euid dirs

/-- The directory of the path as given, unless it is the one above the resolved file. -/
def checkGivenParent (fs : FileSystem) (path : PathBuf) (resolved : List String) (euid : Nat) :
    Result Unit :=
  match fs.givenParent path.path with
  | none => .ok ()
  | some parent =>
      if resolved ≠ [] ∧ parent.path.components = resolved.dropLast.map .name then .ok ()
      else checkDirectory fs parent euid

/-- `ancestors().skip(1)` goes up from the file to the root. -/
def checkDirectories (fs : FileSystem) (path : PathBuf) (opened : Metadata) (euid : Nat) :
    Result Unit := do
  let resolved ← orIoError path (fs.canonicalize path)
  let current ← orIoError path (fs.metadata (.ofPlace resolved))
  require ((current.dev, current.ino) = (opened.dev, opened.ino))
    (rejected (path.text ++ " changed while it was being checked"))
  checkEach fs euid (Tree.above resolved).reverse
  checkGivenParent fs path resolved euid

/-! ### What is accepted -/

/-- Owned by the user or root, and writable by others only with the sticky bit. -/
def Trusted (euid : Nat) (data : Metadata) : Prop :=
  (data.uid = euid ∨ data.uid = 0) ∧ (writableByOthers data.mode → isSticky data.mode)

def Protected (fs : FileSystem) (euid : Nat) (place : List String) : Prop :=
  ∃ data, fs.tree.node place = some (.directory data) ∧ Trusted euid data

section Checks

variable {fs : FileSystem} {path : PathBuf} {opened : Metadata} {euid : Nat}

theorem orIoError_eq_ok {α : Type} {outcome : Except ErrorKind α} {value : α} :
    orIoError path outcome = .ok value ↔ outcome = .ok value := by
  cases outcome with
  | error kind => simp [orIoError, fail]
  | ok found => simp [orIoError]

theorem canonicalize_ofPlace {place : List String} {data : Metadata}
    (hnode : fs.tree.Holds place data) : fs.canonicalize (.ofPlace place) = .ok place := by
  have hbelow : fs.tree.Holds ([] ++ place) data := hnode
  have hresolve : fs.resolve (PathBuf.ofPlace place).path = .ok ⟨place, Tree.descent [] place⟩ :=
    Tree.walk_of_walks (Tree.walks_names fs.linkLimit hbelow)
  unfold FileSystem.canonicalize
  rw [hresolve]

theorem metadata_of_node {dir : PathBuf} {place : List String} {data : Metadata}
    (hplace : fs.canonicalize dir = .ok place) (hnode : fs.tree.Holds place data) : fs.metadata dir = .ok data := by
  unfold FileSystem.metadata
  rw [hplace]
  dsimp only
  rcases hnode with hfile | hdirectory
  · rw [hfile]
  · rw [hdirectory]

theorem checkDirectory_eq_ok {dir : PathBuf} :
    checkDirectory fs dir euid = .ok () ↔
      ∃ data, fs.metadata dir = .ok data ∧ Trusted euid data := by
  simp only [checkDirectory, checkOwner, bind_eq_ok, orIoError_eq_ok, require_eq_ok, Trusted,
    not_and, Decidable.not_not]
  constructor
  · rintro ⟨data, hdata, _, howner, hmode⟩
    exact ⟨data, hdata, howner, hmode⟩
  · rintro ⟨data, hdata, howner, hmode⟩
    exact ⟨data, hdata, (), howner, hmode⟩

theorem checkDirectory_ofPlace {place : List String} (h : fs.tree.IsDirectory place) :
    checkDirectory fs (.ofPlace place) euid = .ok () ↔ Protected fs euid place := by
  obtain ⟨data, hnode⟩ := h
  have hmetadata := metadata_of_node (canonicalize_ofPlace (.inr hnode)) (.inr hnode)
  rw [checkDirectory_eq_ok]
  constructor
  · rintro ⟨_, hother, htrusted⟩
    cases hmetadata.symm.trans hother
    exact ⟨data, hnode, htrusted⟩
  · rintro ⟨_, hother, htrusted⟩
    cases hnode.symm.trans hother
    exact ⟨data, hmetadata, htrusted⟩

theorem checkEach_eq_ok {dirs : List (List String)} (h : ∀ dir ∈ dirs, fs.tree.IsDirectory dir) :
    checkEach fs euid dirs = .ok () ↔ ∀ dir ∈ dirs, Protected fs euid dir := by
  induction dirs with
  | nil => simp [checkEach]
  | cons dir dirs ih =>
    obtain ⟨hdir, hdirs⟩ := List.forall_mem_cons.mp h
    rw [List.forall_mem_cons, ← checkDirectory_ofPlace hdir, ← ih hdirs, checkEach, bind_eq_ok]
    constructor
    · rintro ⟨_, hfirst, hrest⟩
      exact ⟨hfirst, hrest⟩
    · rintro ⟨hfirst, hrest⟩
      exact ⟨(), hfirst, hrest⟩

end Checks

structure Passes (fs : FileSystem) (path : PathBuf) (opened : Metadata) (euid : Nat)
    (found : Found String) : Prop where
  resolves : fs.resolve path.path = .ok found
  same : ∃ data, fs.metadata (.ofPlace found.place) = .ok data ∧
    (data.dev, data.ino) = (opened.dev, opened.ino)
  above : ∀ dir ∈ Tree.above found.place, Protected fs euid dir
  given : ∀ parent, fs.givenParent path.path = some parent →
    ∃ data, fs.metadata parent = .ok data ∧ Trusted euid data

/-- The directories that a lookup of the path goes through on its way down to a link it meets,
or to a directory it leaves by `..`, are protected. -/
def DetoursProtected (fs : FileSystem) (euid : Nat) (path : FileTree.Path String) : Prop :=
  ∀ first last, fs.tree.Turns (path.start fs.cwd) (path.start fs.cwd) path.components first last →
    ∀ dir, first <+: dir → dir <+: last → Protected fs euid dir

section Accepted

variable {fs : FileSystem} {path : PathBuf} {opened : Metadata} {euid : Nat} {found : Found String}

theorem start_isDirectory (fs : FileSystem) (path : FileTree.Path String) :
    fs.tree.IsDirectory (path.start fs.cwd) := fs.cwd_isDirectory.start path

theorem walks_of_resolve (h : fs.resolve path.path = .ok found) :
    fs.tree.Walks fs.linkLimit (path.path.start fs.cwd) path.path.components found.place
      found.looked := Tree.walks_of_walk h

theorem canonicalize_congr {dir dir' : PathBuf} (h : dir.path = dir'.path) :
    fs.canonicalize dir = fs.canonicalize dir' := by
  unfold FileSystem.canonicalize
  rw [h]

theorem givenParent_absolute {parent : PathBuf} (h : fs.givenParent path.path = some parent) :
    parent.path.absolute = true := by
  unfold FileSystem.givenParent at h
  split at h
  · cases h
  · cases h
    rfl

theorem checkGivenParent_eq_ok {resolved : List String}
    (habove : ∀ dir ∈ Tree.above resolved, Protected fs euid dir) :
    checkGivenParent fs path resolved euid = .ok () ↔
      ∀ parent, fs.givenParent path.path = some parent →
        ∃ data, fs.metadata parent = .ok data ∧ Trusted euid data := by
  unfold checkGivenParent
  cases hparent : fs.givenParent path.path with
  | none => simp
  | some parent =>
    simp only [Option.some.injEq, forall_eq']
    by_cases hsame : resolved ≠ [] ∧ parent.path.components = resolved.dropLast.map .name
    · obtain ⟨data, hnode, htrusted⟩ := habove resolved.dropLast (Tree.dropLast_mem_above hsame.1)
      have hpath : parent.path = (PathBuf.ofPlace resolved.dropLast).path :=
        FileTree.Path.ext (givenParent_absolute hparent) hsame.2
      have hplace := (canonicalize_congr hpath).trans (canonicalize_ofPlace (.inr hnode))
      rw [if_pos hsame]
      simp only [true_iff]
      exact ⟨data, metadata_of_node hplace (.inr hnode), htrusted⟩
    · rw [if_neg hsame]
      exact checkDirectory_eq_ok

theorem canonicalize_eq_ok {place : List String} : fs.canonicalize path = .ok place ↔
    ∃ looked, fs.resolve path.path = .ok ⟨place, looked⟩ := by
  unfold FileSystem.canonicalize
  cases fs.resolve path.path with
  | error failure => simp
  | ok found =>
    constructor
    · intro h
      cases h
      exact ⟨found.looked, rfl⟩
    · rintro ⟨looked, h⟩
      cases h
      rfl

theorem above_isDirectory (h : fs.resolve path.path = .ok found) :
    ∀ dir ∈ Tree.above found.place, fs.tree.IsDirectory dir := by
  intro dir hdir
  obtain ⟨data, hnode⟩ := (walks_of_resolve h).ends (start_isDirectory fs path.path)
  exact Tree.isDirectory_of_above hdir hnode.ne_none

theorem checkDirectories_eq_ok : checkDirectories fs path opened euid = .ok () ↔
    ∃ found, Passes fs path opened euid found := by
  simp only [checkDirectories, bind_eq_ok, orIoError_eq_ok, canonicalize_eq_ok, require_eq_ok]
  constructor
  · rintro ⟨place, ⟨looked, hresolve⟩, current, hcurrent, _, hsame, _, heach, hgiven⟩
    rw [checkEach_eq_ok fun dir hdir => above_isDirectory hresolve dir (List.mem_reverse.mp hdir)]
      at heach
    have habove : ∀ dir ∈ Tree.above place, Protected fs euid dir :=
      fun dir hdir => heach dir (List.mem_reverse.mpr hdir)
    exact ⟨⟨place, looked⟩, hresolve, ⟨current, hcurrent, hsame⟩, habove,
      (checkGivenParent_eq_ok habove).mp hgiven⟩
  · rintro ⟨⟨place, looked⟩, hresolve, ⟨current, hcurrent, hsame⟩, habove, hgiven⟩
    refine ⟨place, ⟨looked, hresolve⟩, current, hcurrent, (), hsame, (), ?_,
      (checkGivenParent_eq_ok habove).mpr hgiven⟩
    rw [checkEach_eq_ok fun dir hdir => above_isDirectory hresolve dir (List.mem_reverse.mp hdir)]
    exact fun dir hdir => habove dir (List.mem_reverse.mp hdir)

theorem lookedUp_of_resolve (h : fs.resolve path.path = .ok found) :
    fs.lookedUp path.path = found.looked := by
  unfold FileSystem.lookedUp
  rw [h]

/-- For an absolute path the detours are what is above the links and at the `..` met. -/
theorem detours_absolute (habsolute : path.path.absolute = true) :
    DetoursProtected fs euid path.path ↔
      ∀ first last, fs.tree.Turns [] [] path.path.components first last →
        ∀ dir, dir <+: last → Protected fs euid dir := by
  have hstart : path.path.start fs.cwd = [] := by
    unfold FileTree.Path.start
    rw [if_pos habsolute]
  unfold DetoursProtected
  rw [hstart]
  constructor
  · intro hdetours first last hturns
    apply hturns.forall_prefix (List.prefix_refl []) ?_ hdetours
    intro dir hdir hne
    exact absurd (List.prefix_nil.mp hdir) hne
  · exact fun habove first last hturns dir _ => habove first last hturns dir

/-- A path of names that meets no link has no detours. -/
theorem detours_straight {names : List String} (hnames : path.path.components = names.map .name)
    (hlinks : ∀ front, front <+: names → ∀ target,
      fs.tree.node (path.path.start fs.cwd ++ front) ≠ some (.link target)) :
    DetoursProtected fs euid path.path := by
  intro first last hturns
  rw [hnames] at hturns
  exact absurd hturns (Tree.not_turns_of_straight hlinks)

/-- The check sees the directories above the file; nothing but the detours is left. -/
theorem protected_iff_detours (haccepted : checkDirectories fs path opened euid = .ok ()) :
    (∀ dir ∈ fs.lookedUp path.path, Protected fs euid dir) ↔ DetoursProtected fs euid path.path := by
  obtain ⟨found, hpasses⟩ := checkDirectories_eq_ok.mp haccepted
  rw [lookedUp_of_resolve hpasses.resolves]
  exact (walks_of_resolve hpasses.resolves).forall_looked_iff hpasses.above

end Accepted

/-! ### A link to a link -/

/-- `/etc/myapp/link` leads through `/srv/shared/hop`, which every user can replace. -/
def hopEntries : List (List String × Node String Metadata) :=
  [([], .directory ⟨0, 0o755, 1, 1, 0⟩),
    (["etc"], .directory ⟨0, 0o755, 1, 2, 0⟩),
    (["etc", "myapp"], .directory ⟨1000, 0o700, 1, 3, 0⟩),
    (["etc", "myapp", "key.bin"], .file ⟨1000, 0o600, 1, 4, 32⟩),
    (["etc", "myapp", "link"], .link ⟨true, [.name "srv", .name "shared", .name "hop"]⟩),
    (["srv"], .directory ⟨0, 0o755, 1, 5, 0⟩),
    (["srv", "shared"], .directory ⟨1001, 0o777, 1, 6, 0⟩),
    (["srv", "shared", "hop"], .link ⟨true, [.name "etc", .name "myapp", .name "key.bin"]⟩)]

def hopSystem : FileSystem where
  tree := .ofEntries hopEntries (by decide) (by decide)
  cwd := []
  cwd_isDirectory := ⟨⟨0, 0o755, 1, 1, 0⟩, rfl⟩
  linkLimit := 40

def hopPath : PathBuf := ⟨"/etc/myapp/link", true, [.name "etc", .name "myapp", .name "link"]⟩

theorem shared_not_protected : ¬ Protected hopSystem 1000 ["srv", "shared"] := by
  rintro ⟨data, hnode, howner, -⟩
  have hdata : hopSystem.tree.node ["srv", "shared"] = some (.directory ⟨1001, 0o777, 1, 6, 0⟩) := by
    decide +kernel
  cases hdata.symm.trans hnode
  exact absurd howner (by decide)

theorem hop_not_protected : ¬ (checkDirectories hopSystem hopPath ⟨1000, 0o600, 1, 4, 32⟩ 1000 = .ok () →
    ∀ dir ∈ hopSystem.lookedUp hopPath.path, Protected hopSystem 1000 dir) := by
  intro h
  exact shared_not_protected (h (by decide +kernel) ["srv", "shared"] (by decide +kernel))

theorem protected_iff_detours_hop :
    checkDirectories hopSystem hopPath ⟨1000, 0o600, 1, 4, 32⟩ 1000 = .ok () ∧
    ¬ DetoursProtected hopSystem 1000 hopPath.path := by
  have haccepted : checkDirectories hopSystem hopPath ⟨1000, 0o600, 1, 4, 32⟩ 1000 = .ok () := by
    decide +kernel
  refine ⟨haccepted, fun hdetours => ?_⟩
  have hlooked := (protected_iff_detours haccepted).mpr hdetours
  exact shared_not_protected (hlooked ["srv", "shared"] (by decide +kernel))

end KeyVault
