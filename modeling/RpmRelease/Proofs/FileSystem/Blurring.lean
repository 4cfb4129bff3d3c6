import RpmRelease.FileSystem.Copy
import RpmRelease.Proofs.FileSystem.Storage

/-!
# What does not depend on times

A blurred file system has no times, and on request no contents of files either.  Every question about
files is answered in the same way for the blurred file system as for the file system itself, up to the
times in the answer, and every change to the blurred file system is the blurred change.  So two file
systems that are the same when blurred stay so, whatever the clocks say.
-/

set_option autoImplicit false

namespace RpmRelease

/-! ## Blurring -/

/-- A node without its time, and without its contents unless they are kept. -/
def Node.blur (keep : Bool) : Node → Node
  | .directory mode _ => .directory mode 0
  | .file mode _ content => .file mode 0 (if keep then content else [])
  | .link target _ => .link target 0

/-- Blurring keeps the kind of a node. -/
@[simp] theorem Node.kind_blur (keep : Bool) (node : Node) : (node.blur keep).kind = node.kind := by
  cases node <;> rfl

/-- Blurring keeps the mode of a node. -/
@[simp] theorem Node.mode_blur (keep : Bool) (node : Node) : (node.blur keep).mode = node.mode := by
  cases node <;> rfl

/-- Setting the mode of a blurred node is blurring the node with that mode. -/
theorem Node.setMode_blur (keep : Bool) (node : Node) (mode : Mode) :
    (node.setMode mode).blur keep = (node.blur keep).setMode mode := by
  cases node <;> rfl

/-- The caller at the beginning of time. -/
def Caller.still (caller : Caller) : Caller :=
  { caller with now := 0 }

namespace FileSystem

/-- A file system with blurred nodes. -/
def blur (keep : Bool) (fs : FileSystem) : FileSystem :=
  ⟨fs.nodes.map fun _ node => node.blur keep⟩

variable (keep : Bool) (caller : Caller) (fs : FileSystem)

/-- At each location of a blurred file system stands what stood there, blurred. -/
@[simp] theorem get?_blur (l : Location) : (fs.blur keep).get? l = (fs.get? l).map (·.blur keep) := by
  simp [blur, get?, Std.ExtTreeMap.getElem?_map]

/-- Blurring goes through setting a node. -/
theorem blur_set (l : Location) (node : Node) :
    (fs.set l node).blur keep = (fs.blur keep).set l (node.blur keep) := by
  refine FileSystem.ext fun k => ?_
  rw [get?_blur, get?_set, get?_set, get?_blur]
  split <;> rfl

/-- Blurring goes through erasing a node. -/
theorem blur_erase (l : Location) : (fs.erase l).blur keep = (fs.blur keep).erase l := by
  refine FileSystem.ext fun k => ?_
  rw [get?_blur, get?_erase, get?_erase, get?_blur]
  split <;> rfl

/-- File systems that are the same when blurred are so when more is left out. -/
theorem blur_eq_of_keep {keep keep' : Bool} {fs fs' : FileSystem} (hkeep : keep' = true → keep = true)
    (h : fs.blur keep = fs'.blur keep) : fs.blur keep' = fs'.blur keep' := by
  have htwice (fs : FileSystem) : (fs.blur keep).blur keep' = fs.blur keep' := by
    refine FileSystem.ext fun l => ?_
    rw [get?_blur, get?_blur, get?_blur, Option.map_map]
    congr 1
    funext node
    cases node with
    | directory => rfl
    | link => rfl
    | file mode time content =>
        cases keep' with
        | false => rfl
        | true => simp [Node.blur, hkeep]
  rw [← htwice, h, htwice]

/-- An entry of a directory with its node blurred. -/
def blurEntry (entry : String × Node) : String × Node :=
  (entry.1, entry.2.blur keep)

/-- Below a location stand the same names, with blurred nodes. -/
theorem below_blur (l : Location) :
    (fs.blur keep).below l = (fs.below l).map fun entry => (entry.1, entry.2.blur keep) := by
  rw [below, blur, Std.ExtTreeMap.toList_map, List.filterMap_map, below, List.map_filterMap]
  congr 1
  funext entry
  obtain ⟨place, node⟩ := entry
  simp only [Function.comp_apply]
  split <;> rfl

/-- A directory has the same entries, with blurred nodes. -/
theorem children_blur (l : Location) :
    (fs.blur keep).children l = (fs.children l).map (blurEntry keep) := by
  rw [children, below_blur, List.filterMap_map, children, List.map_filterMap]
  congr 1
  funext entry
  obtain ⟨names, node⟩ := entry
  match names with
  | [] => rfl
  | [name] => rfl
  | _ :: _ :: _ => rfl

/-- Whether a directory has entries does not depend on what is blurred. -/
theorem hasChildren_blur (l : Location) : (fs.blur keep).hasChildren l = fs.hasChildren l := by
  rw [hasChildren, hasChildren, children_blur, List.isEmpty_map]

end FileSystem

/-- What a caller may do with a node does not depend on what is blurred. -/
@[simp] theorem Caller.may_still (caller : Caller) (keep : Bool) (permission : Permission)
    (node : Node) : caller.still.may permission (node.blur keep) = caller.may permission node := by
  rw [Caller.may, Caller.may, Node.mode_blur]
  rfl

/-! ## Following paths -/

namespace Lookup

variable (keep : Bool) (caller : Caller) (fs : FileSystem)

/-- A place with its node blurred. -/
def Place.blur (keep : Bool) : Place → Place
  | .occupied l node => .occupied l (node.blur keep)
  | .vacant directory name slash => .vacant directory name slash

/-- Entering a directory does not depend on what is blurred. -/
@[simp] theorem enter_blur (l : Location) :
    enter caller.still (fs.blur keep) l = enter caller fs l := by
  rw [enter, enter, FileSystem.get?_blur]
  cases fs.get? l with
  | none => rfl
  | some node => simp

/-- Walking steps leads to the same place when what stands behind links does. -/
theorem walkSteps_blur {follow : Bool} {behind behind' : Location → List Step → Except FileError Place}
    (hbehind : ∀ l path, behind' l path = (behind l path).map (Place.blur keep)) (l : Location)
    (path : List Step) : walkSteps caller.still (fs.blur keep) follow behind' l path =
      (walkSteps caller fs follow behind l path).map (Place.blur keep) := by
  -- on the steps up to the first link, behind which the assumption takes over
  induction path generalizing l with
  | nil =>
      rw [walkSteps, walkSteps, FileSystem.get?_blur]
      cases fs.get? l <;> rfl
  | cons step path ih =>
      cases step with
      | here =>
          rw [walkSteps, walkSteps, enter_blur, ih]
          cases enter caller fs l <;> rfl
      | up =>
          rw [walkSteps, walkSteps, enter_blur, ih]
          cases enter caller fs l <;> rfl
      | directory =>
          rw [walkSteps, walkSteps, FileSystem.get?_blur]
          cases fs.get? l with
          | none => rfl
          | some node =>
              simp only [Option.map_some, Node.kind_blur, ih]
              split <;> rfl
      | name name =>
          rw [walkSteps.eq_def, walkSteps.eq_def caller fs]
          simp only [enter_blur, FileSystem.get?_blur]
          cases enter caller fs l with
          | error e => rfl
          | ok _ =>
              by_cases hsize : maxName < name.utf8ByteSize
              · simp [hsize, bind, Except.bind, throw, throwThe, MonadExceptOf.throw, Except.map]
              · simp only [if_neg hsize, bind, Except.bind, pure, Except.pure]
                cases fs.get? (l ++ [name]) with
                | none =>
                    simp only [Option.map_none]
                    split <;> rfl
                | some node =>
                    cases node with
                    | link target time =>
                        simp only [Option.map_some, Node.blur, hbehind]
                        split <;> rfl
                    | directory => exact ih _
                    | file => exact ih _

/-- A walk leads to the same place. -/
theorem walk_blur (follow : Bool) (links : Nat) (l : Location) (path : List Step) :
    walk caller.still (fs.blur keep) follow links l path =
      (walk caller fs follow links l path).map (Place.blur keep) := by
  induction links generalizing l path with
  | zero =>
      rw [walk, walk]
      apply walkSteps_blur
      intro _ _
      rfl
  | succ links ih =>
      rw [walk, walk]
      exact walkSteps_blur keep caller fs ih l path

/-- A path is located at the same place. -/
theorem locate_blur (follow : Bool) (path : Path) : locate caller.still (fs.blur keep) follow path =
    (locate caller fs follow path).map (Place.blur keep) := by
  rw [locate, locate, walk_blur]
  cases checkText path.text <;> rfl

/-- A path leads to the same location, with the node blurred. -/
theorem find_blur (follow : Bool) (path : Path) : find caller.still (fs.blur keep) follow path =
    (find caller fs follow path).map fun found => (found.1, found.2.blur keep) := by
  rw [find, find, locate_blur]
  cases locate caller fs follow path with
  | error e => rfl
  | ok place => cases place <;> rfl

/-- The directory of an entry is the same in the blurred file system. -/
theorem locateEntry_blur (path : Path) :
    locateEntry caller.still (fs.blur keep) path = locateEntry caller fs path := by
  have hstart : start caller.still path.text = start caller path.text := rfl
  rw [locateEntry, locateEntry, hstart]
  cases checkText path.text with
  | error e => rfl
  | ok _ =>
      simp only [walk_blur, bind, Except.bind]
      cases walk caller fs true maxLinks (start caller path.text) (cutLast (steps path.text)).1 with
      | error e => rfl
      | ok place =>
          cases place with
          | vacant => rfl
          | occupied l node => simp only [Except.map, Place.blur, enter_blur]

end Lookup

/-! ## Questions about files -/

namespace FileSystem

variable (keep : Bool) (caller : Caller) (fs : FileSystem) (path : Path)

/-- Looking at a node behind links gives it blurred. -/
theorem stat_blur :
    (fs.blur keep).stat caller.still path = (fs.stat caller path).map (·.blur keep) := by
  rw [stat, stat, Lookup.find_blur]
  cases Lookup.find caller fs true path <;> rfl

/-- Looking at a node gives it blurred. -/
theorem lstat_blur :
    (fs.blur keep).lstat caller.still path = (fs.lstat caller path).map (·.blur keep) := by
  rw [lstat, lstat, Lookup.find_blur]
  cases Lookup.find caller fs false path <;> rfl

/-- Whether a path leads anywhere does not depend on what is blurred. -/
@[simp] theorem reaches_blur : (fs.blur keep).reaches caller.still path = fs.reaches caller path := by
  rw [reaches, reaches, stat_blur]
  cases fs.stat caller path <;> rfl

/-- Whether a path leads to a directory does not depend on what is blurred. -/
@[simp] theorem isDirectory_blur :
    (fs.blur keep).isDirectory caller.still path = fs.isDirectory caller path := by
  rw [isDirectory, isDirectory, stat_blur]
  cases fs.stat caller path with
  | error e => rfl
  | ok node => simp [Except.map]

/-- The target of a link does not depend on what is blurred. -/
theorem readLink_blur : (fs.blur keep).readLink caller.still path = fs.readLink caller path := by
  rw [readLink, readLink, lstat_blur]
  cases fs.lstat caller path with
  | error e => rfl
  | ok node => cases node <;> rfl

/-- Reading a directory gives the same entries, blurred. -/
theorem readDirectory_blur : (fs.blur keep).readDirectory caller.still path =
    (fs.readDirectory caller path).map (List.map (blurEntry keep)) := by
  rw [readDirectory, readDirectory, Lookup.find_blur]
  cases Lookup.find caller fs true path with
  | error e => rfl
  | ok found =>
      simp only [Except.map, bind, Except.bind, Node.kind_blur, Caller.may_still, children_blur]
      split
      · rfl
      · split <;> rfl

/-- Opening a file for reading gives it blurred. -/
theorem openRead_blur :
    (fs.blur keep).openRead caller.still path = (fs.openRead caller path).map (·.blur keep) := by
  rw [openRead, openRead, stat_blur]
  cases fs.stat caller path with
  | error e => rfl
  | ok node =>
      simp only [Except.map, bind, Except.bind, Caller.may_still]
      split <;> rfl

/-- Reading a file gives its contents, if they are kept. -/
theorem read_blur : (fs.blur keep).read caller.still path =
    (fs.read caller path).map fun content => if keep then content else [] := by
  rw [read, read, openRead_blur]
  cases fs.openRead caller path with
  | error e => rfl
  | ok node => cases node <;> rfl

/-- Contents that are kept can be read in both of two file systems that are the same when blurred. -/
theorem read_eq_of_blur {c₁ c₂ : Caller} {fs₁ fs₂ : FileSystem} (hclock : c₁.still = c₂.still)
    (hfs : fs₁.blur true = fs₂.blur true) (path : Path) : fs₁.read c₁ path = fs₂.read c₂ path := by
  have hkept (x : Except FileError Bytes) :
      (x.map fun content => if true then content else []) = x := by
    cases x <;> rfl
  rw [← hkept (fs₁.read c₁ path), ← read_blur, hclock, hfs, read_blur, hkept]

/-- Whether a directory may be written to does not depend on what is blurred. -/
@[simp] theorem checkWritable_blur (l : Location) :
    (fs.blur keep).checkWritable caller.still l = fs.checkWritable caller l := by
  rw [checkWritable, checkWritable, get?_blur]
  cases fs.get? l with
  | none => rfl
  | some node => simp

/-! ## Changes to files -/

/-- Making a directory goes through blurring. -/
theorem makeDirectory_blur : (fs.blur keep).makeDirectory caller.still path =
    (fs.makeDirectory caller path).map (blur keep) := by
  rw [makeDirectory, makeDirectory, Lookup.locateEntry_blur]
  cases Lookup.locateEntry caller fs path with
  | error e => rfl
  | ok found =>
      obtain ⟨l, ending⟩ := found
      cases ending with
      | directory step => rfl
      | name name slash =>
          simp only [bind, Except.bind, get?_blur, Option.isSome_map, checkWritable_blur]
          split
          · rfl
          · cases fs.checkWritable caller l with
            | error e => rfl
            | ok _ =>
                simp only [pure, Except.pure, Except.map, blur_set]
                rfl

/-- Whether an entry is vacant does not depend on what is blurred. -/
theorem vacantEntry_blur :
    (fs.blur keep).vacantEntry caller.still path = fs.vacantEntry caller path := by
  rw [vacantEntry, vacantEntry, Lookup.locateEntry_blur]
  cases Lookup.locateEntry caller fs path with
  | error e => rfl
  | ok found =>
      obtain ⟨l, ending⟩ := found
      cases ending with
      | directory step => rfl
      | name name slash =>
          simp only [bind, Except.bind, get?_blur, Option.isSome_map, checkWritable_blur]

/-- Making a link goes through blurring. -/
theorem makeLink_blur (target : Path) : (fs.blur keep).makeLink caller.still target path =
    (fs.makeLink caller target path).map (blur keep) := by
  rw [makeLink, makeLink, vacantEntry_blur]
  split
  · rfl
  · cases Lookup.checkText target.text with
    | error e => rfl
    | ok _ =>
        cases fs.vacantEntry caller path with
        | error e => rfl
        | ok l =>
            simp only [bind, Except.bind, pure, Except.pure, Except.map, blur_set]
            rfl

/-- Removing a file goes through blurring. -/
theorem removeFile_blur : (fs.blur keep).removeFile caller.still path =
    (fs.removeFile caller path).map (blur keep) := by
  rw [removeFile, removeFile, Lookup.locateEntry_blur]
  cases Lookup.locateEntry caller fs path with
  | error e => rfl
  | ok found =>
      obtain ⟨l, ending⟩ := found
      cases ending with
      | directory step => rfl
      | name name slash =>
          simp only [bind, Except.bind, get?_blur, checkWritable_blur]
          cases fs.get? (l ++ [name]) with
          | none => rfl
          | some node =>
              simp only [Option.map_some, Node.kind_blur]
              split
              · rfl
              · cases fs.checkWritable caller l with
                | error e => rfl
                | ok _ =>
                    simp only [← blur_erase]
                    split <;> rfl

/-- Removing a directory goes through blurring. -/
theorem removeDirectory_blur : (fs.blur keep).removeDirectory caller.still path =
    (fs.removeDirectory caller path).map (blur keep) := by
  rw [removeDirectory, removeDirectory, Lookup.locateEntry_blur]
  cases Lookup.locateEntry caller fs path with
  | error e => rfl
  | ok found =>
      obtain ⟨l, ending⟩ := found
      cases ending with
      | directory step => cases step <;> rfl
      | name name slash =>
          simp only [bind, Except.bind, get?_blur, checkWritable_blur, hasChildren_blur]
          cases fs.get? (l ++ [name]) with
          | none => rfl
          | some node =>
              simp only [Option.map_some, Node.kind_blur]
              cases fs.checkWritable caller l with
              | error e => rfl
              | ok _ =>
                  simp only [← blur_erase]
                  split
                  · rfl
                  · split <;> rfl

/-- The mode after writing does not depend on the time. -/
theorem modeWritten_still (mode : Mode) : modeWritten caller.still mode = modeWritten caller mode := rfl

/-- Opening a file for writing goes through blurring. -/
theorem openWrite_blur (mode : Mode) : (fs.blur keep).openWrite caller.still mode path =
    (fs.openWrite caller mode path).map fun opened => (opened.1, opened.2.blur keep) := by
  rw [openWrite, openWrite, Lookup.locate_blur]
  cases Lookup.locate caller fs true path with
  | error e => rfl
  | ok place =>
      cases place with
      | occupied l node =>
          cases node with
          | directory => rfl
          | link => rfl
          | file old time content =>
              have hmay : caller.still.may .write (.file old 0 []) = caller.may .write (.file old 0 []) := rfl
              simp only [Except.map, Lookup.Place.blur, Node.blur, bind, Except.bind, hmay,
                modeWritten_still]
              split
              · rfl
              · simp only [pure, Except.pure, blur_set, Node.blur, ite_self]
                rfl
      | vacant l name slash =>
          simp only [Except.map, Lookup.Place.blur, bind, Except.bind, checkWritable_blur]
          split
          · rfl
          · cases fs.checkWritable caller l with
            | error e => rfl
            | ok _ =>
                simp only [pure, Except.pure, blur_set, Node.blur, ite_self]
                rfl

/-- Writing contents goes through blurring, if contents are kept. -/
theorem fill_blur (l : Location) (content : Bytes) :
    (fs.fill caller l content).blur true = (fs.blur true).fill caller.still l content := by
  rw [fill, fill, get?_blur]
  cases fs.get? l with
  | none => rfl
  | some node =>
      cases node with
      | directory => rfl
      | link => rfl
      | file mode time old =>
          simp only [Option.map_some, Node.blur, blur_set, if_true, modeWritten_still]
          rfl

/-! ## Walks and patterns -/

/-- Walking a directory meets the same. -/
theorem walkDirectory_blur (steps : Nat) : walkDirectory caller.still (fs.blur keep) steps path =
    walkDirectory caller fs steps path := by
  induction steps generalizing path with
  | zero => rfl
  | succ steps ih =>
      rw [walkDirectory, walkDirectory, readDirectory_blur]
      cases fs.readDirectory caller path with
      | error e => rfl
      | ok entries =>
          simp only [Except.map, Except.mapError, bind, Except.bind, List.mapM_map]
          simp only [Function.comp_def, blurEntry, Node.kind_blur, ih]

/-- Walking from a path meets the same. -/
theorem walk_blur : (fs.blur keep).walk caller.still path = fs.walk caller path := by
  have hwalk : ∀ steps, walkDirectory caller.still (fs.blur keep) steps path =
      walkDirectory caller fs steps path := fun steps => walkDirectory_blur keep caller fs path steps
  rw [walk, walk, lstat_blur, stat_blur, hwalk]
  generalize walkDirectory caller fs Lookup.maxPath path = found
  cases fs.lstat caller path with
  | error e => rfl
  | ok node =>
      cases node with
      | directory => rfl
      | file => rfl
      | link target time =>
          cases fs.stat caller path with
          | error e => rfl
          | ok other => cases other <;> rfl

end FileSystem

namespace Glob

variable (keep : Bool) (caller : Caller) (fs : FileSystem)

/-- A path is the same candidate. -/
theorem ofPath_blur (path : Path) :
    Candidate.ofPath caller.still (fs.blur keep) path = Candidate.ofPath caller fs path := by
  rw [Candidate.ofPath, Candidate.ofPath, FileSystem.isDirectory_blur]

/-- An entry is the same candidate. -/
theorem ofEntry_blur (directory : Path) (name : String) (node : Node) :
    Candidate.ofEntry caller.still (fs.blur keep) directory name (node.blur keep) =
      Candidate.ofEntry caller fs directory name node := by
  rw [Candidate.ofEntry, Candidate.ofEntry, Node.kind_blur, ofPath_blur]

/-- Whether something stands at a path does not depend on what is blurred. -/
theorem stands_blur (path : Path) : stands caller.still (fs.blur keep) path = stands caller fs path := by
  rw [stands, stands, FileSystem.reaches_blur, FileSystem.lstat_blur]
  cases fs.lstat caller path <;> rfl

/-- Searching finds the same. -/
theorem search_blur (directoriesOnly : Bool) (steps : Nat) (pattern : List Component)
    (c : Candidate) : search caller.still (fs.blur keep) directoriesOnly steps pattern c =
      search caller fs directoriesOnly steps pattern c := by
  induction steps generalizing pattern c with
  | zero => rw [search.eq_def, search.eq_def caller fs]
  | succ steps ih =>
      rw [search.eq_def, search.eq_def caller fs]
      cases pattern with
      | nil => rfl
      | cons first rest =>
          cases first with
          | literal text => simp only [stands_blur, ofPath_blur, ih]
          | directories =>
              simp only [ofPath_blur, ih, FileSystem.readDirectory_blur]
              cases fs.readDirectory caller c.path with
              | error e => rfl
              | ok entries =>
                  simp only [Except.map, List.mapM_map, Function.comp_def, FileSystem.blurEntry,
                    ofEntry_blur]
          | wild tokens =>
              simp only [ofPath_blur, ih, FileSystem.readDirectory_blur]
              cases fs.readDirectory caller c.path with
              | error e => rfl
              | ok entries =>
                  simp only [Except.map, List.mapM_map, Function.comp_def, FileSystem.blurEntry,
                    ofEntry_blur]

/-- Expanding a pattern gives the same. -/
theorem expand_blur (root : Path) (pattern : String) :
    expand caller.still (fs.blur keep) root pattern = expand caller fs root pattern := by
  have hisOk : ((fs.blur keep).lstat caller.still (root.join ⟨pattern⟩)).isOk =
      (fs.lstat caller (root.join ⟨pattern⟩)).isOk := by
    rw [FileSystem.lstat_blur]
    cases fs.lstat caller (root.join ⟨pattern⟩) <;> rfl
  simp only [expand, Pattern.paths, search_blur, ofPath_blur, hisOk]

end Glob

end RpmRelease
