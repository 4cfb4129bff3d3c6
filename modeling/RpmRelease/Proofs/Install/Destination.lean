import RpmRelease.Install.Directories
import RpmRelease.Proofs.Path.Joining

/-!
# Directories below a destination root

With a destination root every directory is taken below it: its components come behind those of the
root, without its own root and without dots.  No way of writing the directory leads past this, and it
does not matter whether the directory is given, configured or made from the name of the package.
-/

set_option autoImplicit false

namespace RpmRelease

/-- A slash in front of a path adds no move. -/
theorem Path.moves_slash (p : Path) : Path.moves ⟨"/" ++ p.text⟩ = p.moves := by
  have htext : ("/" ++ p.text).toList = [] ++ '/' :: p.text.toList := by simp
  rw [moves_eq, moves_eq, htext, Text.splitWhen_append_cons [] _ (by decide), List.flatMap_append]
  rfl

/-- The moves of a path joined with another one, which stands alone if it is absolute. -/
theorem Path.moves_join_any {p : Path} (hp : p.text ≠ "") (q : Path) :
    (p.join q).moves = if q.isAbsolute then q.moves else p.moves ++ q.moves := by
  cases hq : q.isAbsolute with
  | true => simp [join, hq]
  | false => rw [moves_join hp hq, ← moves_eq, if_neg (by simp)]

namespace InstallDirectories

/-- A path is another one taken below a root. -/
structure IsBelow (root directory path : Path) : Prop where
  components : path.components = root.components ++ directory.moves
  startsWith : path.startsWith root = true
  isAbsolute : path.isAbsolute = root.isAbsolute

/-- A target with a destination is its directory taken below that. -/
theorem isBelow_target {given : InstallDirectories} {root : Path}
    (hroot : given.destination = some root) (hne : root.text ≠ "") (directory : Path) :
    IsBelow root directory (given.target directory) := by
  obtain ⟨hrelative, hmoves⟩ := Path.ofComponents_below_root directory
  rw [target, hroot]
  exact {
    components := by rw [Path.components_join_relative hne hrelative, hmoves]
    startsWith := Path.startsWith_join_relative hne hrelative
    isAbsolute := Path.isAbsolute_join hne hrelative }

/-- The moves of the directory that is picked: the given one, the configured one, or the usual one. -/
def pickedMoves (given configured : Option Path) (usual : List Path.Component) :
    List Path.Component :=
  match given, configured with
  | some directory, _ => directory.moves
  | none, some directory => directory.moves
  | none, none => usual

/-- The moves of the usual directory for a package, which a name that is an absolute path replaces. -/
def packageMoves (front : List Path.Component) (name : String) : List Path.Component :=
  if (⟨name⟩ : Path).isAbsolute then Path.moves ⟨name⟩ else front ++ Path.moves ⟨name⟩

/-- The directory that is picked has the moves of the given one, or of the configured one, or of the
usual one. -/
theorem moves_getD_or (given configured : Option Path) (usual : Path) :
    ((given.or configured).getD usual).moves = pickedMoves given configured usual.moves := by
  cases given with
  | some directory => rfl
  | none => cases configured <;> rfl

/-- Programs go to the picked directory, usually to `/usr/bin`. -/
theorem moves_bindir (given : InstallDirectories) (configured : InstallSection) (name : String) :
    (given.resolve configured name).bindir.moves =
      pickedMoves given.bindir configured.bindir [.normal "usr", .normal "bin"] := by
  have husual : Path.moves ⟨"/usr/bin"⟩ = [.normal "usr", .normal "bin"] := by decide
  rw [resolve, moves_getD_or, husual]

/-- Libraries go to the picked directory, usually to one for the package in `/usr/share`. -/
theorem moves_libdir (given : InstallDirectories) (configured : InstallSection) (name : String) :
    (given.resolve configured name).libdir.moves =
      pickedMoves given.libdir configured.libdir
        (packageMoves [.normal "usr", .normal "share"] name) := by
  have hfront : Path.moves ⟨"/usr/share"⟩ = [.normal "usr", .normal "share"] := by decide
  rw [resolve, moves_getD_or, Path.moves_join_any (by decide), hfront, packageMoves]

/-- Configuration goes to the picked directory, usually to one for the package in `/etc`. -/
theorem moves_etcdir (given : InstallDirectories) (configured : InstallSection) (name : String) :
    (given.resolve configured name).etcdir.moves =
      pickedMoves given.etcdir configured.etcdir (packageMoves [.normal "etc"] name) := by
  have hfront : Path.moves ⟨"/etc"⟩ = [.normal "etc"] := by decide
  rw [resolve, moves_getD_or, Path.moves_join_any (by decide), hfront, packageMoves]

/-- Where directories are installed: below the destination root if there is one, and as they are if
there is none. -/
theorem target_spec (given : InstallDirectories) (configured : InstallSection) (name : String) :
    (∀ root, given.destination = some root → root.text ≠ "" →
      (∀ directory, IsBelow root directory (given.target directory)) ∧
      (∀ directory, directory.isAbsolute = false →
        (given.target ⟨"/" ++ directory.text⟩).components = (given.target directory).components) ∧
      (given.target (given.resolve configured name).bindir).components = root.components ++
        pickedMoves given.bindir configured.bindir [.normal "usr", .normal "bin"] ∧
      (given.target (given.resolve configured name).libdir).components = root.components ++
        pickedMoves given.libdir configured.libdir
          (packageMoves [.normal "usr", .normal "share"] name) ∧
      (given.target (given.resolve configured name).etcdir).components = root.components ++
        pickedMoves given.etcdir configured.etcdir (packageMoves [.normal "etc"] name)) ∧
    (given.destination = none → ∀ directory, given.target directory = directory) := by
  constructor
  · intro root hroot hne
    have hbelow := isBelow_target hroot hne
    refine ⟨hbelow, ?_, ?_, ?_, ?_⟩
    · intro directory _
      rw [(hbelow _).components, (hbelow _).components, Path.moves_slash]
    · rw [(hbelow _).components, moves_bindir]
    · rw [(hbelow _).components, moves_libdir]
    · rw [(hbelow _).components, moves_etcdir]
  · intro hnone directory
    rw [target, hnone]

/-- The directory for the libraries of a package, below a destination root. -/
theorem target_spec_package :
    (⟨"/stage"⟩ : Path).text ≠ "" ∧
      (target { destination := some ⟨"/stage"⟩ }
        (resolve { destination := some ⟨"/stage"⟩ } {} "tool/2").libdir).components =
          [.root, .normal "stage", .normal "usr", .normal "share", .normal "tool", .normal "2"] ∧
      target {} ⟨"/usr/bin"⟩ = ⟨"/usr/bin"⟩ := by
  have hne : (⟨"/stage"⟩ : Path).text ≠ "" := by decide
  obtain ⟨-, -, -, hlibdir, -⟩ :=
    (target_spec { destination := some ⟨"/stage"⟩ } {} "tool/2").1 ⟨"/stage"⟩ rfl hne
  exact ⟨hne, hlibdir.trans (by decide), (target_spec {} {} "tool").2 rfl ⟨"/usr/bin"⟩⟩

/-- An absolute directory with a dot in it comes below the destination root as well. -/
example : target { destination := some ⟨"stage/"⟩ } ⟨"//etc/./tool"⟩ = ⟨"stage/etc/tool"⟩ := by decide

end InstallDirectories

end RpmRelease
