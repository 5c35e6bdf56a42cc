import Mathlib.Data.List.Infix

/-! Trees of directories, files and symbolic links, and the lookup of a path: the
place it leads to, and the directories it looks a component up in on its way. -/
namespace FileTree

/-- A component of a path; `.` components change nothing and are left out. -/
inductive Component (ν : Type) where
  | parent
  | name (name : ν)
deriving DecidableEq, Repr

@[ext] structure Path (ν : Type) where
  absolute : Bool
  components : List (Component ν)
deriving DecidableEq, Repr

inductive Node (ν μ : Type) where
  | file (data : μ)
  | directory (data : μ)
  | link (target : Path ν)
deriving DecidableEq, Repr

/-- A place is the list of names that lead to it from the root. Only directories
have anything below them. -/
structure Tree (ν μ : Type) where
  node : List ν → Option (Node ν μ)
  root : ∃ data, node [] = some (.directory data)
  closed : ∀ place name, node (place ++ [name]) ≠ none →
    ∃ data, node place = some (.directory data)

structure Found (ν : Type) where
  place : List ν
  looked : List (List ν)
deriving DecidableEq, Repr

inductive Failure where
  | missing
  | notDirectory
  | tooManyLinks
deriving DecidableEq, Repr

variable {ν μ : Type}

def Found.visit (dir : List ν) (found : Found ν) : Found ν :=
  { found with looked := dir :: found.looked }

def Path.start (path : Path ν) (dir : List ν) : List ν := if path.absolute then [] else dir

namespace Tree

variable (tree : Tree ν μ)

/-- The components in order, from `dir` on. What a link leads to, with what is left
after it, is handed to `jump`. -/
def follow (jump : List ν → List (Component ν) → Except Failure (Found ν)) :
    List ν → List (Component ν) → Except Failure (Found ν)
  | dir, [] => .ok ⟨dir, []⟩
  | dir, .parent :: rest => (follow jump dir.dropLast rest).map (Found.visit dir)
  | dir, .name name :: rest =>
      match tree.node (dir ++ [name]) with
      | none => .error .missing
      | some (.link target) =>
          (jump (target.start dir) (target.components ++ rest)).map (Found.visit dir)
      | some (.directory _) => (follow jump (dir ++ [name]) rest).map (Found.visit dir)
      | some (.file _) =>
          if rest = [] then .ok ⟨dir ++ [name], [dir]⟩ else .error .notDirectory

def walk : Nat → List ν → List (Component ν) → Except Failure (Found ν)
  | 0 => tree.follow fun _ _ => .error .tooManyLinks
  | links + 1 => tree.follow (walk links)

def IsDirectory (place : List ν) : Prop := ∃ data, tree.node place = some (.directory data)

def Holds (place : List ν) (data : μ) : Prop :=
  tree.node place = some (.file data) ∨ tree.node place = some (.directory data)

/-- A lookup that ended, component by component. -/
inductive Walks : Nat → List ν → List (Component ν) → List ν → List (List ν) → Prop where
  | done (links : Nat) (dir : List ν) : Walks links dir [] dir []
  | parent {links : Nat} {dir place : List ν} {rest : List (Component ν)} {looked : List (List ν)}
      (hrest : Walks links dir.dropLast rest place looked) :
      Walks links dir (.parent :: rest) place (dir :: looked)
  | link {links : Nat} {dir place : List ν} {name : ν} {target : Path ν}
      {rest : List (Component ν)} {looked : List (List ν)}
      (hnode : tree.node (dir ++ [name]) = some (.link target))
      (hrest : Walks links (target.start dir) (target.components ++ rest) place looked) :
      Walks (links + 1) dir (.name name :: rest) place (dir :: looked)
  | directory {links : Nat} {dir place : List ν} {name : ν} {data : μ}
      {rest : List (Component ν)} {looked : List (List ν)}
      (hnode : tree.node (dir ++ [name]) = some (.directory data))
      (hrest : Walks links (dir ++ [name]) rest place looked) :
      Walks links dir (.name name :: rest) place (dir :: looked)
  | file {links : Nat} {dir : List ν} {name : ν} {data : μ}
      (hnode : tree.node (dir ++ [name]) = some (.file data)) :
      Walks links dir [.name name] (dir ++ [name]) [dir]

end Tree

theorem map_visit_eq_ok {dir place : List ν} {looked : List (List ν)}
    {outcome : Except Failure (Found ν)}
    (h : outcome.map (Found.visit dir) = .ok ⟨place, looked⟩) :
    ∃ later, looked = dir :: later ∧ outcome = .ok ⟨place, later⟩ := by
  cases outcome with
  | error failure => cases h
  | ok found =>
    cases h
    exact ⟨found.looked, rfl, rfl⟩

namespace Tree

variable {tree : Tree ν μ}

theorem walks_of_follow {links : Nat}
    {jump : List ν → List (Component ν) → Except Failure (Found ν)}
    (hjump : ∀ {dir : List ν} {name : ν} {target : Path ν} {rest : List (Component ν)}
      {place : List ν} {looked : List (List ν)},
      tree.node (dir ++ [name]) = some (.link target) →
      jump (target.start dir) (target.components ++ rest) = .ok ⟨place, looked⟩ →
      tree.Walks links dir (.name name :: rest) place (dir :: looked))
    {dir place : List ν} {rest : List (Component ν)} {looked : List (List ν)}
    (h : tree.follow jump dir rest = .ok ⟨place, looked⟩) :
    tree.Walks links dir rest place looked := by
  induction rest generalizing dir looked with
  | nil =>
    cases h
    exact .done links _
  | cons component rest ih =>
    cases component with
    | parent =>
      obtain ⟨later, rfl, hrest⟩ := map_visit_eq_ok h
      exact .parent (ih hrest)
    | name name =>
      unfold follow at h
      split at h
      · cases h
      · rename_i target hnode
        obtain ⟨later, rfl, hrest⟩ := map_visit_eq_ok h
        exact hjump hnode hrest
      · rename_i data hnode
        obtain ⟨later, rfl, hrest⟩ := map_visit_eq_ok h
        exact .directory hnode (ih hrest)
      · rename_i data hnode
        split at h
        · rename_i hlast
          cases h
          subst hlast
          exact .file hnode
        · cases h

theorem walks_of_walk {links : Nat} {dir place : List ν} {rest : List (Component ν)}
    {looked : List (List ν)} (h : tree.walk links dir rest = .ok ⟨place, looked⟩) :
    tree.Walks links dir rest place looked := by
  induction links generalizing dir place rest looked with
  | zero =>
    refine walks_of_follow ?_ h
    intro _ _ _ _ _ _ _ hfailed
    cases hfailed
  | succ links ih =>
    refine walks_of_follow ?_ h
    intro _ _ _ _ _ _ hnode hrest
    exact .link hnode (ih hrest)

theorem walk_parent (links : Nat) (dir : List ν) (rest : List (Component ν)) :
    tree.walk links dir (.parent :: rest) =
      (tree.walk links dir.dropLast rest).map (Found.visit dir) := by
  cases links <;> rfl

theorem walk_directory {dir : List ν} {name : ν} {data : μ} (links : Nat)
    (hnode : tree.node (dir ++ [name]) = some (.directory data)) (rest : List (Component ν)) :
    tree.walk links dir (.name name :: rest) =
      (tree.walk links (dir ++ [name]) rest).map (Found.visit dir) := by
  cases links <;> simp only [walk, follow, hnode]

theorem walk_of_walks {links : Nat} {dir place : List ν} {rest : List (Component ν)}
    {looked : List (List ν)} (h : tree.Walks links dir rest place looked) :
    tree.walk links dir rest = .ok ⟨place, looked⟩ := by
  induction h with
  | done links dir => cases links <;> rfl
  | parent hrest ih =>
    rw [walk_parent, ih]
    rfl
  | link hnode hrest ih =>
    simp only [walk, follow, hnode, ih]
    rfl
  | directory hnode hrest ih =>
    rw [walk_directory _ hnode, ih]
    rfl
  | @file links _ _ _ hnode => cases links <;> simp [walk, follow, hnode]

/-! ### Places and what is above them -/

theorem Holds.ne_none {place : List ν} {data : μ} (h : tree.Holds place data) :
    tree.node place ≠ none := by
  rcases h with hfile | hdirectory
  · simp [hfile]
  · simp [hdirectory]

theorem IsDirectory.dropLast {place : List ν} (h : tree.IsDirectory place) :
    tree.IsDirectory place.dropLast := by
  rcases List.eq_nil_or_concat place with rfl | ⟨above, name, rfl⟩
  · exact tree.root
  · obtain ⟨data, hnode⟩ := h
    rw [List.concat_eq_append] at hnode ⊢
    rw [List.dropLast_concat]
    exact tree.closed above name (by rw [hnode]; simp)

theorem IsDirectory.start {dir : List ν} (h : tree.IsDirectory dir) (path : Path ν) :
    tree.IsDirectory (path.start dir) := by
  unfold Path.start
  split
  · exact tree.root
  · exact h

theorem isDirectory_of_append {dir names : List ν} (hnames : names ≠ [])
    (h : tree.node (dir ++ names) ≠ none) : tree.IsDirectory dir := by
  induction names using List.reverseRecOn with
  | nil => exact absurd rfl hnames
  | append_singleton names name ih =>
    rw [← List.append_assoc] at h
    obtain ⟨data, hnode⟩ := tree.closed _ _ h
    cases names with
    | nil =>
      rw [List.append_nil] at hnode
      exact ⟨data, hnode⟩
    | cons first names => exact ih (by simp) (by rw [hnode]; simp)

def above (place : List ν) : List (List ν) :=
  (List.range place.length).map fun depth => place.take depth

theorem mem_above {dir place : List ν} :
    dir ∈ above place ↔ ∃ names, names ≠ [] ∧ dir ++ names = place := by
  unfold above
  simp only [List.mem_map, List.mem_range]
  constructor
  · rintro ⟨depth, hdepth, rfl⟩
    refine ⟨place.drop depth, ?_, List.take_append_drop depth place⟩
    intro hempty
    have hlength := congrArg List.length hempty
    rw [List.length_drop, List.length_nil] at hlength
    omega
  · rintro ⟨names, hnames, rfl⟩
    refine ⟨dir.length, ?_, List.take_left⟩
    have hpos := List.length_pos_iff.mpr hnames
    rw [List.length_append]
    omega

theorem dropLast_mem_above {place : List ν} (h : place ≠ []) : place.dropLast ∈ above place :=
  mem_above.mpr ⟨[place.getLast h], by simp, List.dropLast_append_getLast h⟩

theorem isDirectory_of_above {dir place : List ν} (h : dir ∈ above place)
    (hplace : tree.node place ≠ none) : tree.IsDirectory dir := by
  obtain ⟨names, hnames, rfl⟩ := mem_above.mp h
  exact isDirectory_of_append hnames hplace

/-! ### What a lookup visits -/

theorem Walks.ends {links : Nat} {dir place : List ν} {rest : List (Component ν)}
    {looked : List (List ν)} (h : tree.Walks links dir rest place looked)
    (hdir : tree.IsDirectory dir) : ∃ data, tree.Holds place data := by
  induction h with
  | done links dir =>
    obtain ⟨data, hnode⟩ := hdir
    exact ⟨data, .inr hnode⟩
  | parent hrest ih => exact ih hdir.dropLast
  | link hnode hrest ih => exact ih (hdir.start _)
  | directory hnode hrest ih => exact ih ⟨_, hnode⟩
  | @file _ _ _ data hnode => exact ⟨data, .inl hnode⟩

/-! ### Turning off -/

/-- A lookup that stands in `dir`, having come straight down from `top`, later comes straight
down from `from` to `last` and turns off there: at a link that `last` holds, or by `..`. -/
inductive Turns (tree : Tree ν μ) :
    List ν → List ν → List (Component ν) → List ν → List ν → Prop where
  | parentHere {top dir : List ν} {rest : List (Component ν)} :
      Turns tree top dir (.parent :: rest) top dir
  | linkHere {top dir : List ν} {name : ν} {target : Path ν} {rest : List (Component ν)}
      (hnode : tree.node (dir ++ [name]) = some (.link target)) :
      Turns tree top dir (.name name :: rest) top dir
  | parent {top dir first last : List ν} {rest : List (Component ν)}
      (hrest : Turns tree dir.dropLast dir.dropLast rest first last) :
      Turns tree top dir (.parent :: rest) first last
  | link {top dir first last : List ν} {name : ν} {target : Path ν} {rest : List (Component ν)}
      (hnode : tree.node (dir ++ [name]) = some (.link target))
      (hrest : Turns tree (target.start dir) (target.start dir) (target.components ++ rest)
        first last) :
      Turns tree top dir (.name name :: rest) first last
  | directory {top dir first last : List ν} {name : ν} {data : μ} {rest : List (Component ν)}
      (hnode : tree.node (dir ++ [name]) = some (.directory data))
      (hrest : Turns tree top (dir ++ [name]) rest first last) :
      Turns tree top dir (.name name :: rest) first last

section Turns

variable {links : Nat} {top dir first last place visited : List ν} {rest : List (Component ν)}
  {looked : List (List ν)}

theorem append_prefix_mem_above {name : ν} (h : dir ++ [name] <+: place) : dir ∈ above place := by
  obtain ⟨names, rfl⟩ := h
  exact mem_above.mpr ⟨name :: names, by simp, by simp⟩

theorem Walks.goes_on (h : tree.Walks links dir rest place looked) (top : List ν) :
    (∃ last, tree.Turns top dir rest top last ∧ dir <+: last) ∨ dir <+: place := by
  induction h with
  | done links dir => exact .inr (List.prefix_refl dir)
  | @parent _ dir => exact .inl ⟨dir, .parentHere, List.prefix_refl dir⟩
  | @link _ dir _ _ _ _ _ hnode => exact .inl ⟨dir, .linkHere hnode, List.prefix_refl dir⟩
  | @directory _ dir _ name _ _ _ hnode _ ih =>
    have hdown : dir <+: dir ++ [name] := List.prefix_append dir [name]
    rcases ih with ⟨last, hturns, hlast⟩ | hplace
    · exact .inl ⟨last, .directory hnode hturns, hdown.trans hlast⟩
    · exact .inr (hdown.trans hplace)
  | file => exact .inr (List.prefix_append _ _)

/-- Whatever is visited and not above the end is on a descent that turns off. -/
theorem Walks.visited_on_descent (h : tree.Walks links dir rest place looked)
    (htop : top <+: dir) (hvisited : visited ∈ looked) :
    visited ∈ above place ∨
      ∃ first last, tree.Turns top dir rest first last ∧ first <+: visited ∧ visited <+: last := by
  induction h generalizing top with
  | done => cases hvisited
  | @parent _ dir _ _ _ _ ih =>
    rcases List.mem_cons.mp hvisited with rfl | hlater
    · exact .inr ⟨top, _, .parentHere, htop, List.prefix_refl _⟩
    · rcases ih (List.prefix_refl _) hlater with habove | ⟨first, last, hturns, hon⟩
      · exact .inl habove
      · exact .inr ⟨first, last, .parent hturns, hon⟩
  | link hnode _ ih =>
    rcases List.mem_cons.mp hvisited with rfl | hlater
    · exact .inr ⟨top, _, .linkHere hnode, htop, List.prefix_refl _⟩
    · rcases ih (List.prefix_refl _) hlater with habove | ⟨first, last, hturns, hon⟩
      · exact .inl habove
      · exact .inr ⟨first, last, .link hnode hturns, hon⟩
  | @directory _ dir _ name _ _ _ hnode hrest ih =>
    have hdown : dir <+: dir ++ [name] := List.prefix_append dir [name]
    rcases List.mem_cons.mp hvisited with rfl | hlater
    · rcases hrest.goes_on top with ⟨last, hturns, hlast⟩ | hplace
      · exact .inr ⟨top, last, .directory hnode hturns, htop, hdown.trans hlast⟩
      · exact .inl (append_prefix_mem_above hplace)
    · rcases ih (htop.trans hdown) hlater with habove | ⟨first, last, hturns, hon⟩
      · exact .inl habove
      · exact .inr ⟨first, last, .directory hnode hturns, hon⟩
  | file =>
    cases List.mem_singleton.mp hvisited
    exact .inl (append_prefix_mem_above (List.prefix_refl _))

theorem Turns.visits (h : tree.Turns top dir rest first last)
    (hwalk : tree.Walks links dir rest place looked) (hfirst : first <+: visited)
    (hlast : visited <+: last) :
    visited ∈ looked ∨ (top <+: visited ∧ visited <+: dir ∧ visited ≠ dir) := by
  have hnowhere : ∀ {here : List ν}, ¬ (here <+: visited ∧ visited <+: here ∧ visited ≠ here) :=
    fun ⟨hover, hunder, hne⟩ => hne (antisymm hunder hover)
  induction h generalizing links place looked with
  | @parentHere top dir rest =>
    cases hwalk with
    | parent hrest =>
      by_cases hhere : visited = dir
      · exact .inl (List.mem_cons.mpr (.inl hhere))
      · exact .inr ⟨hfirst, hlast, hhere⟩
  | @linkHere top dir name target rest hnode =>
    have hhead : dir ∈ looked := by
      cases hwalk <;> exact List.mem_cons_self
    by_cases hhere : visited = dir
    · exact .inl (hhere ▸ hhead)
    · exact .inr ⟨hfirst, hlast, hhere⟩
  | parent _ ih =>
    cases hwalk with
    | parent hrest =>
      exact .inl (List.mem_cons_of_mem _ ((ih hrest hfirst hlast).resolve_right hnowhere))
  | link hnode _ ih =>
    cases hwalk with
    | link hnode' hrest =>
      cases hnode.symm.trans hnode'
      exact .inl (List.mem_cons_of_mem _ ((ih hrest hfirst hlast).resolve_right hnowhere))
    | directory hnode' => cases hnode.symm.trans hnode'
    | file hnode' => cases hnode.symm.trans hnode'
  | @directory top dir _ _ name _ _ hnode _ ih =>
    cases hwalk with
    | link hnode' => cases hnode.symm.trans hnode'
    | directory hnode' hrest =>
      rcases ih hrest hfirst hlast with hlater | ⟨hbelow, hdown, hne⟩
      · exact .inl (List.mem_cons_of_mem _ hlater)
      · rcases List.prefix_concat_iff.mp hdown with hwhole | hdir
        · exact absurd hwhole hne
        · by_cases hhere : visited = dir
          · exact .inl (List.mem_cons.mpr (.inl hhere))
          · exact .inr ⟨hbelow, hdir, hhere⟩
    | file hnode' => cases hnode.symm.trans hnode'

theorem Walks.forall_looked_iff (h : tree.Walks links dir rest place looked)
    {Q : List ν → Prop} (habove : ∀ visited ∈ above place, Q visited) :
    (∀ visited ∈ looked, Q visited) ↔
      ∀ first last, tree.Turns dir dir rest first last →
        ∀ visited, first <+: visited → visited <+: last → Q visited := by
  constructor
  · intro hlooked first last hturns visited hfirst hlast
    apply hlooked
    apply (hturns.visits h hfirst hlast).resolve_right
    rintro ⟨hover, hunder, hne⟩
    exact hne (antisymm hunder hover)
  · intro hdescents visited hvisited
    rcases h.visited_on_descent (List.prefix_refl dir) hvisited with hend | hdescent
    · exact habove visited hend
    · obtain ⟨first, last, hturns, hfirst, hlast⟩ := hdescent
      exact hdescents first last hturns visited hfirst hlast

/-- From the root on, what a descent begins below has been visited by the descents before it,
so they cover all that is above the places where they turn off. -/
theorem Turns.forall_prefix (h : tree.Turns top dir rest first last) {Q : List ν → Prop}
    (htop : top <+: dir) (hover : ∀ visited, visited <+: top → visited ≠ top → Q visited)
    (hdescents : ∀ first last, tree.Turns top dir rest first last →
      ∀ visited, first <+: visited → visited <+: last → Q visited) :
    ∀ visited, visited <+: last → Q visited := by
  have hall : ∀ {top dir : List ν}, (∀ visited, visited <+: top → visited ≠ top → Q visited) →
      (∀ visited, top <+: visited → visited <+: dir → Q visited) → top <+: dir →
      ∀ visited, visited <+: dir → Q visited := by
    intro top dir hover hleg htop visited hvisited
    rcases List.prefix_or_prefix_of_prefix hvisited htop with hupper | hlower
    · by_cases hsame : visited = top
      · exact hleg visited (hsame ▸ List.prefix_refl top) hvisited
      · exact hover visited hupper hsame
    · exact hleg visited hlower hvisited
  induction h with
  | parentHere => exact hall hover (hdescents _ _ .parentHere) htop
  | linkHere hnode => exact hall hover (hdescents _ _ (.linkHere hnode)) htop
  | parent _ ih =>
    apply ih (List.prefix_refl _)
    · intro visited hvisited _
      exact hall hover (hdescents _ _ .parentHere) htop visited
        (hvisited.trans (List.dropLast_prefix _))
    · exact fun first last hturns => hdescents first last (.parent hturns)
  | @link top dir first last name target rest hnode _ ih =>
    apply ih (List.prefix_refl _)
    · intro visited hvisited hne
      unfold Path.start at hvisited hne
      split at hvisited
      · rename_i habsolute
        rw [if_pos habsolute] at hne
        exact absurd (List.prefix_nil.mp hvisited) hne
      · exact hall hover (hdescents _ _ (.linkHere hnode)) htop visited hvisited
    · exact fun first last hturns => hdescents first last (.link hnode hturns)
  | directory hnode _ ih =>
    apply ih (htop.trans (List.prefix_append _ _)) hover
    exact fun first last hturns => hdescents first last (.directory hnode hturns)

theorem not_turns_of_straight {names : List ν}
    (hnames : ∀ front, front <+: names → ∀ target, tree.node (dir ++ front) ≠ some (.link target)) :
    ¬ tree.Turns top dir (names.map .name) first last := by
  intro h
  induction names generalizing dir with
  | nil => cases h
  | cons name names ih =>
    have hhere : ∀ target, tree.node (dir ++ [name]) ≠ some (.link target) :=
      hnames [name] (List.prefix_append [name] names)
    cases h with
    | linkHere hnode => exact hhere _ hnode
    | link hnode => exact hhere _ hnode
    | directory hnode hrest =>
      apply ih ?_ hrest
      intro front hfront target
      have hlater := hnames (name :: front) (List.cons_prefix_cons.mpr ⟨rfl, hfront⟩) target
      simpa using hlater

end Turns

/-! ### Going down -/

def descent : List ν → List ν → List (List ν)
  | _, [] => []
  | dir, name :: names => dir :: descent (dir ++ [name]) names

theorem Walks.down {links : Nat} {dir names place : List ν} {rest : List (Component ν)}
    {looked : List (List ν)} (hdir : tree.IsDirectory (dir ++ names))
    (h : tree.Walks links (dir ++ names) rest place looked) :
    tree.Walks links dir (names.map .name ++ rest) place (descent dir names ++ looked) := by
  induction names generalizing dir with
  | nil =>
    rw [List.append_nil] at h
    exact h
  | cons name names ih =>
    have hsplit : dir ++ name :: names = dir ++ [name] ++ names := by simp
    rw [hsplit] at hdir h
    have hhere : tree.IsDirectory (dir ++ [name]) := by
      by_cases hlast : names = []
      · rwa [hlast, List.append_nil] at hdir
      · obtain ⟨data, hnode⟩ := hdir
        exact isDirectory_of_append hlast (by rw [hnode]; simp)
    obtain ⟨data, hnode⟩ := hhere
    exact .directory hnode (ih hdir h)

theorem descent_concat (dir names : List ν) (name : ν) :
    descent dir (names ++ [name]) = descent dir names ++ [dir ++ names] := by
  induction names generalizing dir with
  | nil => simp [descent]
  | cons first names ih => simp [descent, ih]

theorem walks_names (links : Nat) {dir names : List ν} {data : μ}
    (hnode : tree.Holds (dir ++ names) data) :
    tree.Walks links dir (names.map .name) (dir ++ names) (descent dir names) := by
  rcases List.eq_nil_or_concat names with rfl | ⟨names, name, rfl⟩
  · rw [List.append_nil]
    exact .done links dir
  · rw [List.concat_eq_append] at hnode ⊢
    rw [← List.append_assoc] at hnode ⊢
    have hlast : tree.Walks links (dir ++ names) [.name name] (dir ++ names ++ [name])
        [dir ++ names] := by
      rcases hnode with hfile | hdirectory
      · exact .file hfile
      · exact .directory hdirectory (.done links _)
    rw [List.map_append, descent_concat]
    exact Walks.down (tree.closed _ name hnode.ne_none) hlast

/-! ### Trees given by their entries -/

def holdsDirectory : Option (Node ν μ) → Bool
  | some (.directory _) => true
  | _ => false

theorem exists_of_holdsDirectory {node : Option (Node ν μ)} (h : holdsDirectory node = true) :
    ∃ data, node = some (.directory data) := by
  unfold holdsDirectory at h
  split at h
  · exact ⟨_, rfl⟩
  · cases h

section Entries

variable [DecidableEq ν]

def entryAt (entries : List (List ν × Node ν μ)) (place : List ν) : Option (Node ν μ) :=
  (entries.find? fun entry => decide (entry.1 = place)).map Prod.snd

def ofEntries (entries : List (List ν × Node ν μ))
    (hroot : holdsDirectory (entryAt entries []) = true)
    (hclosed : ∀ entry ∈ entries, holdsDirectory (entryAt entries entry.1.dropLast) = true) :
    Tree ν μ where
  node := entryAt entries
  root := exists_of_holdsDirectory hroot
  closed := by
    intro place name hnode
    unfold entryAt at hnode
    cases hentry : entries.find? fun entry => decide (entry.1 = place ++ [name]) with
    | none =>
      rw [hentry] at hnode
      exact absurd rfl hnode
    | some entry =>
      have hplace : entry.1 = place ++ [name] := by simpa using List.find?_some hentry
      have habove := hclosed entry (List.mem_of_find?_eq_some hentry)
      rw [hplace, List.dropLast_concat] at habove
      exact exists_of_holdsDirectory habove

end Entries

end Tree

end FileTree
