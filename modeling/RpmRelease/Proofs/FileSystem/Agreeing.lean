import RpmRelease.Proofs.FileSystem.Blurring
import RpmRelease.Proofs.FileSystem.Cutting

/-!
# Two runs that agree

Two runs start from file systems that are the same when blurred, on behalf of callers that differ in
nothing but their clocks.  They agree when they end in the same way, with the same failure or with
related results, and leave file systems that are the same when blurred.  The rules follow the ways in
which programs are put together.
-/

set_option autoImplicit false

namespace RpmRelease

/-- Two outcomes are the same failure, or related results. -/
def SameOutcome {ε α β : Type} (Q : α → β → Prop) : Except ε α → Except ε β → Prop
  | .error e, .error e' => e = e'
  | .ok a, .ok b => Q a b
  | _, _ => False

/-- The same failure, or two results that are related. -/
theorem SameOutcome.error_or_ok {ε α β : Type} {Q : α → β → Prop} {x : Except ε α} {y : Except ε β}
    (h : SameOutcome Q x y) :
    (∃ e, x = .error e ∧ y = .error e) ∨ ∃ a b, x = .ok a ∧ y = .ok b ∧ Q a b := by
  cases x with
  | error e =>
      cases y with
      | error e' =>
          obtain rfl : e = e' := h
          exact Or.inl ⟨e, rfl, rfl⟩
      | ok b => exact False.elim h
  | ok a =>
      cases y with
      | error e => exact False.elim h
      | ok b => exact Or.inr ⟨a, b, rfl, rfl, h⟩

/-- Outcomes that are equal under two functions are the same but for these. -/
theorem SameOutcome.of_map_eq {ε α β γ : Type} {g : α → γ} {h : β → γ} {x : Except ε α}
    {y : Except ε β} (hmap : x.map g = y.map h) : SameOutcome (fun a b => g a = h b) x y := by
  cases x with
  | error e =>
      cases y with
      | error e' => exact Except.error.inj hmap
      | ok b => simp [Except.map] at hmap
  | ok a =>
      cases y with
      | error e' => simp [Except.map] at hmap
      | ok b => exact Except.ok.inj hmap

/-- Related results may be related more weakly. -/
theorem SameOutcome.imp {ε α β : Type} {Q R : α → β → Prop} {x : Except ε α} {y : Except ε β}
    (h : SameOutcome Q x y) (hQ : ∀ a b, Q a b → R a b) : SameOutcome R x y := by
  rcases h.error_or_ok with ⟨e, rfl, rfl⟩ | ⟨a, b, rfl, rfl, hab⟩
  · exact rfl
  · exact hQ a b hab

/-- What is done with related results has the same outcome when it has for each pair of them. -/
theorem SameOutcome.bind {ε α β α' β' : Type} {Q : α → β → Prop} {R : α' → β' → Prop}
    {x : Except ε α} {y : Except ε β} {f : α → Except ε α'} {g : β → Except ε β'}
    (h : SameOutcome Q x y) (hf : ∀ a b, Q a b → SameOutcome R (f a) (g b)) :
    SameOutcome R (x >>= f) (y >>= g) := by
  rcases h.error_or_ok with ⟨e, rfl, rfl⟩ | ⟨a, b, rfl, rfl, hab⟩
  · exact rfl
  · exact hf a b hab

/-- Functions that keep results related keep outcomes the same. -/
theorem SameOutcome.map {ε α β α' β' : Type} {Q : α → β → Prop} {R : α' → β' → Prop}
    {x : Except ε α} {y : Except ε β} {f : α → α'} {g : β → β'} (h : SameOutcome Q x y)
    (hf : ∀ a b, Q a b → R (f a) (g b)) : SameOutcome R (x.map f) (y.map g) := by
  rcases h.error_or_ok with ⟨e, rfl, rfl⟩ | ⟨a, b, rfl, rfl, hab⟩
  · exact rfl
  · exact hf a b hab

/-- Turning errors into others keeps outcomes the same. -/
theorem SameOutcome.mapError {ε δ α β : Type} {Q : α → β → Prop} {x : Except ε α} {y : Except ε β}
    (f : ε → δ) (h : SameOutcome Q x y) : SameOutcome Q (x.mapError f) (y.mapError f) := by
  rcases h.error_or_ok with ⟨e, rfl, rfl⟩ | ⟨a, b, rfl, rfl, hab⟩
  · exact rfl
  · exact hab

/-- An outcome is the same as itself. -/
theorem SameOutcome.refl {ε α : Type} {x : Except ε α} : SameOutcome Eq x x := by
  cases x with
  | error e => exact Eq.refl e
  | ok a => exact Eq.refl a

/-- Outcomes with equal results are equal. -/
theorem SameOutcome.eq {ε α : Type} {x y : Except ε α} (h : SameOutcome Eq x y) : x = y := by
  rcases h.error_or_ok with ⟨e, rfl, rfl⟩ | ⟨a, b, rfl, rfl, hab⟩
  · rfl
  · rw [hab]

namespace Storage

variable {keep : Bool} {c₁ c₂ : Caller} {fs₁ fs₂ : FileSystem} {ε δ α β γ α' β' ι ι' : Type}

/-- Two runs of programs end in the same way. -/
structure Agrees (keep : Bool) (c₁ c₂ : Caller) (fs₁ fs₂ : FileSystem) (x : Storage ε α)
    (y : Storage ε β) (Q : α → β → Prop) : Prop where
  files : (x.exec c₁ fs₁).2.blur keep = (y.exec c₂ fs₂).2.blur keep
  outcome : SameOutcome Q (x.exec c₁ fs₁).1 (y.exec c₂ fs₂).1

section Rules

variable {Q : α → β → Prop} {R : α' → β' → Prop}

/-- Returning related values ends in the same way. -/
theorem Agrees.pure (hfs : fs₁.blur keep = fs₂.blur keep) {a : α} {b : β} (h : Q a b) :
    Agrees keep c₁ c₂ fs₁ fs₂ (Pure.pure a : Storage ε α) (Pure.pure b) Q := ⟨hfs, h⟩

/-- Throwing the same error ends in the same way. -/
theorem Agrees.throw (hfs : fs₁.blur keep = fs₂.blur keep) (e : ε) :
    Agrees keep c₁ c₂ fs₁ fs₂ (MonadExcept.throw e : Storage ε α) (MonadExcept.throw e) Q := ⟨hfs, rfl⟩

/-- Parts that agree agree one after the other, also when less is kept of the second one. -/
theorem Agrees.andThen {keep' : Bool} (hkeep : keep' = true → keep = true) {x : Storage ε α}
    {y : Storage ε β} {f : α → Storage ε α'} {g : β → Storage ε β'}
    (hx : Agrees keep c₁ c₂ fs₁ fs₂ x y Q)
    (hf : ∀ a b fs₁' fs₂', fs₁'.blur keep = fs₂'.blur keep → Q a b →
      Agrees keep' c₁ c₂ fs₁' fs₂' (f a) (g b) R) :
    Agrees keep' c₁ c₂ fs₁ fs₂ (x >>= f) (y >>= g) R := by
  obtain ⟨hfiles, houtcome⟩ := hx
  rcases hrun₁ : x.exec c₁ fs₁ with ⟨outcome₁, fs₁'⟩
  rcases hrun₂ : y.exec c₂ fs₂ with ⟨outcome₂, fs₂'⟩
  rw [hrun₁, hrun₂] at hfiles houtcome
  rcases houtcome.error_or_ok with ⟨e, rfl, rfl⟩ | ⟨a, b, rfl, rfl, hab⟩
  · constructor
    · rw [exec_bind, exec_bind, hrun₁, hrun₂]
      exact FileSystem.blur_eq_of_keep hkeep hfiles
    · rw [exec_bind, exec_bind, hrun₁, hrun₂]
      exact rfl
  · have hrest := hf a b fs₁' fs₂' hfiles hab
    constructor
    · rw [exec_bind, exec_bind, hrun₁, hrun₂]
      exact hrest.files
    · rw [exec_bind, exec_bind, hrun₁, hrun₂]
      exact hrest.outcome

/-- One program after the other ends in the same way when each does. -/
theorem Agrees.bind {x : Storage ε α} {y : Storage ε β} {f : α → Storage ε α'} {g : β → Storage ε β'}
    (hx : Agrees keep c₁ c₂ fs₁ fs₂ x y Q)
    (hf : ∀ a b fs₁' fs₂', fs₁'.blur keep = fs₂'.blur keep → Q a b →
      Agrees keep c₁ c₂ fs₁' fs₂' (f a) (g b) R) :
    Agrees keep c₁ c₂ fs₁ fs₂ (x >>= f) (y >>= g) R :=
  hx.andThen id hf

/-- Results that agree may be related more weakly. -/
theorem Agrees.imp {x : Storage ε α} {y : Storage ε β} {Q' : α → β → Prop}
    (hx : Agrees keep c₁ c₂ fs₁ fs₂ x y Q) (hQ : ∀ a b, Q a b → Q' a b) :
    Agrees keep c₁ c₂ fs₁ fs₂ x y Q' := ⟨hx.files, hx.outcome.imp hQ⟩

/-- Looking at the outcomes of programs that agree gives outcomes that are the same. -/
theorem Agrees.attempt {x : Storage ε α} {y : Storage ε β} (hx : Agrees keep c₁ c₂ fs₁ fs₂ x y Q) :
    Agrees keep c₁ c₂ fs₁ fs₂ (Storage.attempt x : Storage δ _) (Storage.attempt y) (SameOutcome Q) :=
  ⟨hx.files, hx.outcome⟩

/-- Turning the errors of programs that agree into others keeps them in agreement. -/
theorem Agrees.mapError {x : Storage ε α} {y : Storage ε β} {f : ε → δ}
    (hx : Agrees keep c₁ c₂ fs₁ fs₂ x y Q) :
    Agrees keep c₁ c₂ fs₁ fs₂ (Storage.mapError f x) (Storage.mapError f y) Q :=
  ⟨hx.files, hx.outcome.mapError f⟩

/-- Counting over items that are paired agrees when the program of each pair does. -/
theorem Agrees.countOver {p : ι → Storage ε Nat} {q : ι' → Storage ε Nat} {S : ι → ι' → Prop}
    {items : List ι} {items' : List ι'} (hfs : fs₁.blur keep = fs₂.blur keep)
    (hitems : List.Forall₂ S items items')
    (hround : ∀ i i' fs₁ fs₂, S i i' → fs₁.blur keep = fs₂.blur keep →
      Agrees keep c₁ c₂ fs₁ fs₂ (p i) (q i') Eq) :
    Agrees keep c₁ c₂ fs₁ fs₂ (Storage.countOver p items) (Storage.countOver q items') Eq := by
  induction hitems generalizing fs₁ fs₂ with
  | nil => exact .pure hfs rfl
  | cons hitem _ ih =>
      refine (hround _ _ fs₁ fs₂ hitem hfs).bind fun a b fs₁' fs₂' hfs' hab => ?_
      refine (ih hfs').bind fun a' b' fs₁'' fs₂'' hfs'' hab' => ?_
      exact .pure hfs'' (by rw [hab, hab'])

end Rules

/-- Programs for items that are paired agree when those of each pair do. -/
theorem Agrees.forM {p : ι → Storage ε PUnit} {q : ι' → Storage ε PUnit} {S : ι → ι' → Prop}
    {items : List ι} {items' : List ι'} (hfs : fs₁.blur keep = fs₂.blur keep)
    (hitems : List.Forall₂ S items items')
    (hround : ∀ i i' fs₁ fs₂, S i i' → fs₁.blur keep = fs₂.blur keep →
      Agrees keep c₁ c₂ fs₁ fs₂ (p i) (q i') Eq) :
    Agrees keep c₁ c₂ fs₁ fs₂ (items.forM p) (items'.forM q) Eq := by
  induction hitems generalizing fs₁ fs₂ with
  | nil => exact .pure hfs rfl
  | cons hitem _ ih =>
      rw [List.forM_eq_forM, List.forM_eq_forM, List.forM_cons, List.forM_cons]
      refine (hround _ _ fs₁ fs₂ hitem hfs).bind fun _ _ fs₁' fs₂' hfs' _ => ?_
      exact ih hfs'

/-! ## Single questions and changes -/

/-- Two entries of a directory have the same name, and nodes of the same kind. -/
def SameEntry (a b : String × Node) : Prop := a.1 = b.1 ∧ a.2.kind = b.2.kind

/-- Entries that are equal when blurred are the same but for times and contents. -/
theorem forall₂_sameEntry {as bs : List (String × Node)}
    (h : as.map (FileSystem.blurEntry keep) = bs.map (FileSystem.blurEntry keep)) :
    List.Forall₂ SameEntry as bs := by
  rw [← List.forall₂_eq_eq_eq, List.forall₂_map_left_iff, List.forall₂_map_right_iff] at h
  refine h.imp fun a b hab => ?_
  obtain ⟨hname, hnode⟩ := Prod.ext_iff.1 hab
  have hkind := congrArg Node.kind hnode
  exact ⟨hname, by simpa [FileSystem.blurEntry] using hkind⟩

/-- Directories that are equal when blurred have the same entries, in the same order. -/
theorem forall₂_children (hfs : fs₁.blur keep = fs₂.blur keep) (l : Location) :
    List.Forall₂ SameEntry (fs₁.children l) (fs₂.children l) := by
  have hsame := congrArg (fun fs => fs.children l) hfs
  simp only [FileSystem.children_blur] at hsame
  exact forall₂_sameEntry hsame

section Single

variable (hclock : c₁.still = c₂.still) (hfs : fs₁.blur keep = fs₂.blur keep)
include hclock hfs

/-- A question agrees when blurring what it is asked about blurs its answer. -/
theorem Agrees.query {f : Caller → FileSystem → Except ε α} {g : α → α}
    (hf : ∀ c fs, f c.still (fs.blur keep) = (f c fs).map g) :
    Agrees keep c₁ c₂ fs₁ fs₂ (Storage.query f) (Storage.query f) fun a b => g a = g b := by
  refine ⟨hfs, .of_map_eq ?_⟩
  rw [Storage.query, exec_ofExec, exec_ofExec, ← hf, ← hf, hclock, hfs]

/-- A question whose answer does not depend on what is blurred is answered alike. -/
theorem Agrees.query_eq {f : Caller → FileSystem → Except ε α}
    (hf : ∀ c fs, f c.still (fs.blur keep) = f c fs) :
    Agrees keep c₁ c₂ fs₁ fs₂ (Storage.query f) (Storage.query f) Eq := by
  have hsame : f c₁ fs₁ = f c₂ fs₂ := by rw [← hf c₁, ← hf c₂, hclock, hfs]
  refine ⟨hfs, ?_⟩
  rw [Storage.query, exec_ofExec, exec_ofExec, hsame]
  cases f c₂ fs₂ <;> rfl

omit hclock in
/-- A change agrees when it has the same outcome, with file systems that are equal when blurred. -/
theorem Agrees.of_changes {f f' : Caller → FileSystem → Except ε FileSystem}
    (h : SameOutcome (fun a b => a.blur keep = b.blur keep) (f c₁ fs₁) (f' c₂ fs₂)) :
    Agrees keep c₁ c₂ fs₁ fs₂ (Storage.change f) (Storage.change f') Eq := by
  rcases h.error_or_ok with ⟨e, h₁, h₂⟩ | ⟨a, b, h₁, h₂, hab⟩
  · constructor <;> simp only [Storage.change, exec_ofExec, h₁, h₂]
    · exact hfs
    · exact rfl
  · constructor <;> simp only [Storage.change, exec_ofExec, h₁, h₂]
    · exact hab
    · exact rfl

/-- Changes that blurring commutes with agree. -/
theorem Agrees.change {f : Caller → FileSystem → Except ε FileSystem}
    (hf : ∀ c fs, f c.still (fs.blur keep) = (f c fs).map (FileSystem.blur keep)) :
    Agrees keep c₁ c₂ fs₁ fs₂ (Storage.change f) (Storage.change f) Eq := by
  refine .of_changes hfs (.of_map_eq ?_)
  rw [← hf, ← hf, hclock, hfs]

/-! ## Directories and copies -/

/-- Whether a path leads to a directory is answered alike. -/
theorem agrees_isDirectory (path : Path) : Agrees keep c₁ c₂ fs₁ fs₂
    (Storage.isDirectory path : Storage ε Bool) (Storage.isDirectory path) Eq :=
  .query_eq hclock hfs fun c fs => by rw [FileSystem.isDirectory_blur]

/-- Making a directory agrees. -/
theorem agrees_makeDirectory (path : Path) : Agrees keep c₁ c₂ fs₁ fs₂
    (Storage.change fun caller fs => fs.makeDirectory caller path)
    (Storage.change fun caller fs => fs.makeDirectory caller path) Eq :=
  .change hclock hfs fun c fs => fs.makeDirectory_blur keep c path

/-- A failure to create a directory counts unless the directory is there. -/
theorem agrees_directoryOr (path : Path) (e : FileError) :
    Agrees keep c₁ c₂ fs₁ fs₂ (do if !(← isDirectory path) then throw e : Storage FileError Unit)
      (do if !(← isDirectory path) then throw e) Eq := by
  refine (agrees_isDirectory hclock hfs path).bind ?_
  rintro there - fs₁' fs₂' hfs' rfl
  cases there with
  | true => exact .pure hfs' rfl
  | false => exact .throw hfs' e

/-- Ensuring that there is a directory agrees. -/
theorem agrees_ensureDirectory (path : Path) :
    Agrees keep c₁ c₂ fs₁ fs₂ (ensureDirectory path) (ensureDirectory path) Eq := by
  refine (agrees_makeDirectory hclock hfs path).attempt.bind ?_
  intro a b fs₁' fs₂' hfs' hab
  obtain rfl := hab.eq
  cases a with
  | ok _ => exact .pure hfs' rfl
  | error e => exact agrees_directoryOr hclock hfs' path e

/-- Creating ancestors agrees. -/
theorem agrees_createAncestors (paths : List Path) :
    Agrees keep c₁ c₂ fs₁ fs₂ (createAncestors paths) (createAncestors paths) Eq := by
  induction paths generalizing fs₁ fs₂ with
  | nil => exact .pure hfs rfl
  | cons path above ih =>
      rw [createAncestors]
      split
      · exact .pure hfs rfl
      · refine (agrees_makeDirectory hclock hfs path).attempt.bind ?_
        intro a b fs₁' fs₂' hfs' hab
        obtain rfl := hab.eq
        cases a with
        | ok _ => exact .pure hfs' rfl
        | error e =>
            by_cases hkind : e.kind = .notFound
            · simp only [hkind, beq_self_eq_true, if_true]
              split
              · exact (Agrees.throw (Q := fun _ _ => False) hfs' e).bind fun _ _ _ _ _ h => h.elim
              · refine (ih hfs').bind ?_
                rintro - - fs₁'' fs₂'' hfs'' -
                exact agrees_ensureDirectory hclock hfs'' path
            · simp only [beq_iff_eq, if_neg hkind]
              exact agrees_directoryOr hclock hfs' path e

/-- Creating directories agrees. -/
theorem agrees_createDirectories (path : Path) :
    Agrees keep c₁ c₂ fs₁ fs₂ (createDirectories path) (createDirectories path) Eq :=
  agrees_createAncestors hclock hfs path.ancestors

/-- What copying a file does to the files. -/
def copyStep (source destination : Path) (caller : Caller) (fs : FileSystem) :
    Except FileError FileSystem := do
  let (origin, node) ← Lookup.find caller fs true source
  if !caller.may .read node then throw (.system .accessDenied)
  if node.kind != .file then
    throw (.custom .invalidInput
      "the source path is neither a regular file nor a symlink to a regular file")
  let (target, fs) ← fs.openWrite caller node.mode destination
  let fs :=
    match fs.get? target with
    | some opened => fs.set target (opened.setMode node.mode)
    | none => fs
  let content :=
    match fs.get? origin with
    | some (.file _ _ content) => content
    | _ => []
  return if content.isEmpty then fs else fs.fill caller target content

omit hclock hfs in
/-- Copying a file is a single change. -/
theorem copyFile_eq (source destination : Path) :
    copyFile source destination = Storage.change (copyStep source destination) := rfl

omit hclock hfs in
/-- Copying a file changes blurred files as it changes the files. -/
theorem copyStep_blur (source destination : Path) (c : Caller) (fs : FileSystem) :
    copyStep source destination c.still (fs.blur true) =
      (copyStep source destination c fs).map (FileSystem.blur true) := by
  rw [copyStep, copyStep, Lookup.find_blur]
  cases Lookup.find c fs true source with
  | error e => rfl
  | ok found =>
      obtain ⟨origin, node⟩ := found
      simp only [Except.map, bind, Except.bind, Caller.may_still, Node.kind_blur, Node.mode_blur,
        FileSystem.openWrite_blur]
      split
      · rfl
      split
      · rfl
      cases fs.openWrite c node.mode destination with
      | error e => rfl
      | ok opened =>
          obtain ⟨target, opened⟩ := opened
          -- the mode is set in the same way, and the contents that are read then are kept
          have hset : (match (opened.blur true).get? target with
              | some there => (opened.blur true).set target (there.setMode node.mode)
              | none => opened.blur true) =
              FileSystem.blur true (match opened.get? target with
                | some there => opened.set target (there.setMode node.mode)
                | none => opened) := by
            rw [FileSystem.get?_blur]
            cases opened.get? target with
            | none => rfl
            | some there => simp only [Option.map_some, FileSystem.blur_set, Node.setMode_blur]
          simp only [hset]
          generalize (match opened.get? target with
            | some there => opened.set target (there.setMode node.mode)
            | none => opened) = prepared
          have hcontent : (match (prepared.blur true).get? origin with
              | some (.file _ _ content) => content
              | _ => []) = (match prepared.get? origin with
              | some (.file _ _ content) => content
              | _ => []) := by
            rw [FileSystem.get?_blur]
            cases prepared.get? origin with
            | none => rfl
            | some there => cases there <;> rfl
          simp only [hcontent, pure, Except.pure, apply_ite (FileSystem.blur true),
            FileSystem.fill_blur]

/-! ## Removing -/

/-- Removing a file agrees. -/
theorem agrees_removeFile (path : Path) : Agrees keep c₁ c₂ fs₁ fs₂
    (Storage.change fun caller fs => fs.removeFile caller path)
    (Storage.change fun caller fs => fs.removeFile caller path) Eq :=
  .change hclock hfs fun c fs => fs.removeFile_blur keep c path

/-- Emptying a directory agrees. -/
theorem agrees_emptyDirectory (depth : Nat) (l : Location) :
    Agrees keep c₁ c₂ fs₁ fs₂ (emptyDirectory depth l) (emptyDirectory depth l) Eq := by
  -- on the depth, for any two file systems that are equal when blurred
  induction depth generalizing fs₁ fs₂ l with
  | zero => exact .pure hfs rfl
  | succ depth ih =>
      rw [emptyDirectory_succ]
      have hlisted : Agrees keep c₁ c₂ fs₁ fs₂ (listEntries l) (listEntries l) fun a b =>
          a.map (FileSystem.blurEntry keep) = b.map (FileSystem.blurEntry keep) := by
        refine .query hclock hfs fun c fs => ?_
        rw [FileSystem.get?_blur]
        cases fs.get? l with
        | none => rfl
        | some node =>
            simp only [Option.map_some, Caller.may_still, FileSystem.children_blur]
            split <;> rfl
      refine hlisted.bind fun entries₁ entries₂ fs₁ fs₂ hfs hentries => ?_
      refine Agrees.forM hfs (forall₂_sameEntry hentries) ?_
      rintro ⟨name, node₁⟩ ⟨name', node₂⟩ fs₁ fs₂ ⟨hname, hkind⟩ hfs
      obtain rfl : name = name' := hname
      have hkind : node₁.kind = node₂.kind := hkind
      have henter (fs₁ fs₂ : FileSystem) (hfs : fs₁.blur keep = fs₂.blur keep) :
          Agrees keep c₁ c₂ fs₁ fs₂ (Storage.query fun caller fs => Lookup.enter caller fs l)
            (Storage.query fun caller fs => Lookup.enter caller fs l) Eq :=
        .query_eq hclock hfs fun c fs => Lookup.enter_blur keep c fs l
      have herase (fs₁ fs₂ : FileSystem) (hfs : fs₁.blur keep = fs₂.blur keep) :
          Agrees keep c₁ c₂ fs₁ fs₂ (do
              Storage.query fun caller fs => Lookup.enter caller fs l
              Storage.query fun caller fs => fs.checkWritable caller l
              modify (·.erase (l ++ [name])) : Storage FileError PUnit) (do
              Storage.query fun caller fs => Lookup.enter caller fs l
              Storage.query fun caller fs => fs.checkWritable caller l
              modify (·.erase (l ++ [name]))) Eq := by
        refine (henter fs₁ fs₂ hfs).bind ?_
        rintro - - fs₁ fs₂ hfs -
        refine Agrees.bind (.query_eq hclock hfs fun c fs => fs.checkWritable_blur keep c l) ?_
        rintro - - fs₁ fs₂ hfs -
        have hleft : (fs₁.erase (l ++ [name])).blur keep = (fs₂.erase (l ++ [name])).blur keep := by
          rw [FileSystem.blur_erase, FileSystem.blur_erase, hfs]
        exact ⟨hleft, rfl⟩
      simp only [emptyEntry, hkind]
      split
      · refine (henter fs₁ fs₂ hfs).bind ?_
        rintro - - fs₁ fs₂ hfs -
        refine (ih hfs (l ++ [name])).bind ?_
        rintro - - fs₁ fs₂ hfs -
        exact herase fs₁ fs₂ hfs
      · exact herase fs₁ fs₂ hfs

/-- Removing a tree agrees, whatever the times and the contents are. -/
theorem agrees_removeAll (path : Path) :
    Agrees keep c₁ c₂ fs₁ fs₂ (removeAll path) (removeAll path) Eq := by
  have hfound : Agrees keep c₁ c₂ fs₁ fs₂
      (Storage.query fun caller fs => Lookup.find caller fs false path)
      (Storage.query fun caller fs => Lookup.find caller fs false path)
      fun a b => (a.1, a.2.blur keep) = (b.1, b.2.blur keep) :=
    .query hclock hfs fun c fs => Lookup.find_blur keep c fs false path
  refine hfound.bind ?_
  rintro ⟨l, node₁⟩ ⟨l', node₂⟩ fs₁ fs₂ hfs hsame
  obtain ⟨hplace, hblur⟩ : l = l' ∧ node₁.blur keep = node₂.blur keep := Prod.ext_iff.1 hsame
  obtain rfl := hplace
  have hkind : node₁.kind = node₂.kind := by
    rw [← Node.kind_blur keep, hblur, Node.kind_blur]
  simp only [hkind]
  cases node₂.kind with
  | link => exact agrees_removeFile hclock hfs path
  | file => exact .throw hfs _
  | directory =>
      have hget : Agrees keep c₁ c₂ fs₁ fs₂ (get : Storage FileError FileSystem) get
          fun a b => depthBelow a l = depthBelow b l := by
        have hdepth := congrArg (fun fs => depthBelow fs l) hfs
        simp only [depthBelow, FileSystem.below_blur, List.foldl_map] at hdepth
        exact ⟨hfs, hdepth⟩
      refine hget.bind fun a b fs₁ fs₂ hfs hdepth => ?_
      rw [hdepth]
      refine (agrees_emptyDirectory hclock hfs _ l).bind ?_
      rintro - - fs₁ fs₂ hfs -
      exact .change hclock hfs fun c fs => fs.removeDirectory_blur keep c path

end Single

/-! ## Copies -/

section Copies

variable (hclock : c₁.still = c₂.still) (hfs : fs₁.blur true = fs₂.blur true)
include hclock hfs

/-- Copying an entry agrees for nodes of the same kind. -/
theorem agrees_copyEntry (source destination : Path) {node₁ node₂ : Node}
    (hkind : node₁.kind = node₂.kind) : Agrees true c₁ c₂ fs₁ fs₂
      (copyEntry source destination node₁) (copyEntry source destination node₂) Eq := by
  rw [copyEntry, copyEntry, hkind]
  split
  · refine .change hclock hfs fun c fs => ?_
    rw [FileSystem.readLink_blur]
    cases fs.readLink c source with
    | error e => rfl
    | ok target => exact fs.makeLink_blur true c destination target
  · rw [copyFile_eq]
    exact .change hclock hfs fun c fs => copyStep_blur source destination c fs

/-- What a walk meets is of the same kind. -/
theorem agrees_nodeMet (path : Path) : Agrees true c₁ c₂ fs₁ fs₂ (nodeMet path) (nodeMet path)
    fun node₁ node₂ => node₁.kind = node₂.kind := by
  have hquery : Agrees true c₁ c₂ fs₁ fs₂ (nodeMet path) (nodeMet path)
      fun node₁ node₂ => node₁.blur true = node₂.blur true := by
    refine .query hclock hfs fun c fs => ?_
    rw [FileSystem.lstat_blur]
    cases fs.lstat c path <;> rfl
  refine hquery.imp fun node₁ node₂ hblur => ?_
  rw [← Node.kind_blur true, hblur, Node.kind_blur]

omit hclock in
/-- The place of a copy is the same. -/
theorem agrees_placeBelow (source destination path : Path) : Agrees true c₁ c₂ fs₁ fs₂
    (placeBelow source destination path) (placeBelow source destination path) Eq := by
  rw [placeBelow]
  split
  · exact .pure hfs rfl
  · exact .throw hfs _

/-- Copying a directory agrees, whatever the times are. -/
theorem agrees_copyDirectory (skip : List Path) (source destination : Path) (steps : Nat)
    (path : Path) : Agrees true c₁ c₂ fs₁ fs₂ (copyDirectory skip source destination steps path)
      (copyDirectory skip source destination steps path) Eq := by
  induction steps generalizing fs₁ fs₂ path with
  | zero => exact .pure hfs rfl
  | succ steps ih =>
      rw [copyDirectory]
      have hopened : Agrees true c₁ c₂ fs₁ fs₂
          (Storage.query fun caller fs => do
            let _ ← fs.readDirectory caller path
            Lookup.find caller fs true path)
          (Storage.query fun caller fs => do
            let _ ← fs.readDirectory caller path
            Lookup.find caller fs true path)
          fun a b => (a.1, a.2.blur true) = (b.1, b.2.blur true) := by
        refine .query hclock hfs fun c fs => ?_
        rw [FileSystem.readDirectory_blur, Lookup.find_blur]
        cases fs.readDirectory c path <;> rfl
      refine hopened.attempt.bind ?_
      intro opened₁ opened₂ fs₁ fs₂ hfs hopened
      split
      · exact .pure hfs rfl
      refine (agrees_placeBelow hfs source destination path).bind ?_
      rintro target - fs₁ fs₂ hfs rfl
      refine (agrees_nodeMet hclock hfs path).bind ?_
      rintro - - fs₁ fs₂ hfs -
      refine (agrees_createDirectories hclock hfs target).mapError.bind ?_
      rintro - - fs₁ fs₂ hfs -
      rcases hopened.error_or_ok with ⟨e, rfl, rfl⟩ | ⟨a, b, rfl, rfl, hab⟩
      · exact (Agrees.throw (Q := fun _ _ => False) hfs _).bind fun _ _ _ _ _ h => h.elim
      · have hplace : a.1 = b.1 := (Prod.ext_iff.1 hab).1
        refine Agrees.bind (Q := fun a b => a.1 = b.1) (.pure hfs hplace) ?_
        rintro ⟨l, _⟩ ⟨l', _⟩ fs₁ fs₂ hfs hl
        obtain rfl : l = l' := hl
        -- both copies go through the same names, whose nodes are of the same kind
        have hchildren : Agrees true c₁ c₂ fs₁ fs₂
            (Storage.query fun _ fs => .ok (fs.children l) : Storage Failure _)
            (Storage.query fun _ fs => .ok (fs.children l)) (List.Forall₂ SameEntry) :=
          ⟨hfs, forall₂_children hfs l⟩
        refine hchildren.bind ?_
        intro entries₁ entries₂ fs₁ fs₂ hfs hentries
        refine Agrees.countOver hfs hentries ?_
        rintro ⟨name, node₁⟩ ⟨name', node₂⟩ fs₁ fs₂ ⟨hname, hkind⟩ hfs
        obtain rfl : name = name' := hname
        have hkind : node₁.kind = node₂.kind := hkind
        simp only [hkind]
        split
        · exact ih hfs _
        split
        · exact .pure hfs rfl
        refine (agrees_placeBelow hfs source destination _).bind ?_
        rintro target - fs₁ fs₂ hfs rfl
        refine (agrees_nodeMet hclock hfs _).bind ?_
        intro met₁ met₂ fs₁ fs₂ hfs hmet
        refine (agrees_copyEntry hclock hfs _ target hmet).mapError.bind ?_
        rintro - - fs₁ fs₂ hfs -
        exact .pure hfs rfl

/-- Copying a tree agrees, whatever the times are. -/
theorem agrees_copyTree (skip : List Path) (source destination : Path) : Agrees true c₁ c₂ fs₁ fs₂
    (copyTree skip source destination) (copyTree skip source destination) Eq := by
  have hnode : Agrees true c₁ c₂ fs₁ fs₂
      (Storage.query fun caller fs => (fs.lstat caller source).mapError Failure.file)
      (Storage.query fun caller fs => (fs.lstat caller source).mapError Failure.file)
      fun node₁ node₂ => node₁.blur true = node₂.blur true := by
    refine .query hclock hfs fun c fs => ?_
    rw [FileSystem.lstat_blur]
    cases fs.lstat c source <;> rfl
  refine hnode.bind ?_
  intro node₁ node₂ fs₁ fs₂ hfs hblur
  have hkind : node₁.kind = node₂.kind := by
    rw [← Node.kind_blur true, hblur, Node.kind_blur]
  simp only [hkind]
  split
  · exact agrees_copyDirectory hclock hfs skip source destination _ source
  · refine Agrees.bind (Q := fun _ _ => True) (Agrees.mapError ?_) ?_
    · cases destination.parent? with
      | none => exact (agrees_copyEntry hclock hfs source destination hkind).imp fun _ _ _ => trivial
      | some above =>
          refine (agrees_createDirectories hclock hfs above).bind ?_
          rintro - - fs₁ fs₂ hfs -
          exact (agrees_copyEntry hclock hfs source destination hkind).imp fun _ _ _ => trivial
    · rintro - - fs₁ fs₂ hfs -
      exact .pure hfs rfl

/-- A pattern is expanded alike. -/
theorem agrees_expandPattern (root : Path) (pattern : String) : Agrees true c₁ c₂ fs₁ fs₂
    (expandPattern root pattern) (expandPattern root pattern) Eq :=
  .query_eq hclock hfs fun c fs => by rw [Glob.expand_blur]

end Copies

end Storage

end RpmRelease
