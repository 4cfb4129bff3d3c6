import RpmRelease.Archive
import RpmRelease.Proofs.FileSystem.Agreeing
import RpmRelease.Proofs.Tar.Stream

/-!
# Archiving again

Two runs of archiving start from file systems that are the same up to times.  They end in the same way,
also when the entries carry the times of their nodes.  With a fixed time for all entries they write the
same bytes, so that the archives, too, are the same up to their own times.
-/

set_option autoImplicit false

namespace RpmRelease

/-! ## Endings of writers -/

namespace Tar

variable {α β : Type}

/-- Two writers end in the same way, whatever has been written before. -/
def SameEnding (x y : Writer α) : Prop :=
  ∀ s t, (x.run s).1 = (y.run t).1

/-- Returning the same value ends in the same way. -/
theorem SameEnding.pure (a : α) : SameEnding (pure a : Writer α) (Pure.pure a) := fun _ _ => rfl

/-- Failing with the same error ends in the same way. -/
theorem SameEnding.throw (e : FileError) : SameEnding (throw e : Writer α) (MonadExcept.throw e) :=
  fun _ _ => rfl

/-- Emitting a member always succeeds. -/
theorem SameEnding.emitMember (h h' : Header) (content content' : Bytes) :
    SameEnding (Writer.emitMember h content) (Writer.emitMember h' content') := by
  intro s t
  rw [run_emitMember, run_emitMember]

/-- Writers one after the other end in the same way when each of them does. -/
theorem SameEnding.bind {x y : Writer α} {f g : α → Writer β} (hx : SameEnding x y)
    (hf : ∀ a, SameEnding (f a) (g a)) : SameEnding (x >>= f) (y >>= g) := by
  intro s t
  have hxy := hx s t
  rw [Run.run_bind, Run.run_bind]
  rcases hrun : x.run s with ⟨e | a, s'⟩ <;> rcases hrun' : y.run t with ⟨e' | a', t'⟩ <;>
    rw [hrun, hrun'] at hxy
  · exact congrArg Except.error (Except.error.inj hxy)
  · simp at hxy
  · simp at hxy
  · obtain rfl := Except.ok.inj hxy
    exact hf a s' t'

/-- Writers for the items of a list end in the same way when those of each item do. -/
theorem SameEnding.forM {ι : Type} {items : List ι} {f g : ι → Writer PUnit}
    (hf : ∀ i, SameEnding (f i) (g i)) : SameEnding (items.forM f) (items.forM g) := by
  induction items with
  | nil => exact .pure _
  | cons i items ih =>
      simp only [List.forM_eq_forM, List.forM_cons] at ih ⊢
      exact (hf i).bind fun _ => ih

/-- Whether a name can be written does not depend on what has been written before. -/
theorem sameEnding_prepareName (path : Path) :
    SameEnding (Writer.prepareName path) (Writer.prepareName path) := by
  rw [Writer.prepareName]
  split
  · exact .pure _
  · dsimp only
    split
    · exact (SameEnding.throw _).bind fun _ => .bind (.emitMember _ _ _ _) fun _ => by
        split
        · exact .pure _
        · exact .throw _
    · refine .bind (.emitMember _ _ _ _) fun _ => ?_
      split
      · exact .pure _
      · exact .throw _

/-- Whether a link target can be written does not depend on what has been written before. -/
theorem sameEnding_prepareTarget (name : Slot) (target : Path) :
    SameEnding (Writer.prepareTarget name target) (Writer.prepareTarget name target) := by
  rw [Writer.prepareTarget]
  split
  · exact .pure _
  · dsimp only
    split
    · exact (SameEnding.throw _).bind fun _ => .bind (.emitMember _ _ _ _) fun _ => .pure _
    · exact .bind (.emitMember _ _ _ _) fun _ => .pure _

/-- Whether an item can be written does not depend on its time. -/
theorem sameEnding_append {item item' : Item} (hpath : item.path = item'.path)
    (hbody : item.body = item'.body) :
    SameEnding (Writer.append item) (Writer.append item') := by
  rw [Writer.append, Writer.append, hpath, hbody]
  refine .bind (sameEnding_prepareName _) fun name => ?_
  split
  · exact .emitMember _ _ _ _
  · exact .emitMember _ _ _ _
  · exact .bind (sameEnding_prepareTarget name _) fun _ => .emitMember _ _ _ _

end Tar

namespace Archive

variable {keep : Bool} {c c₁ c₂ : Caller} {fs fs₁ fs₂ : FileSystem} {staging : Path} {first : String}
  {fixed : Option Nat}

/-! ## Items -/

/-- An item without its time, unless all times are fixed. -/
def blurItem (fixed : Option Nat) (item : Tar.Item) : Tar.Item :=
  { item with time := if fixed.isSome then item.time else 0 }

/-- Blurred files give blurred items. -/
theorem item_blur (path : Path) : (item c.still (fs.blur true) staging first fixed path).map
      (blurItem fixed) = (item c fs staging first fixed path).map (blurItem fixed) := by
  rw [item, item, FileSystem.lstat_blur, FileSystem.readLink_blur, FileSystem.read_blur]
  cases fs.lstat c path with
  | error e => rfl
  | ok node =>
      have htime : (if fixed.isSome then entryTime fixed (node.blur true) else 0) =
          if fixed.isSome then entryTime fixed node else 0 := by
        cases fixed <;> rfl
      cases node with
      | directory mode time =>
          simp only [Except.map, bind, Except.bind, Node.blur, pure, Except.pure, blurItem] at htime ⊢
          rw [htime]
          rfl
      | link target time =>
          simp only [Except.map, bind, Except.bind, Node.blur, pure, Except.pure, blurItem] at htime ⊢
          cases fs.readLink c path with
          | error e => rfl
          | ok target' =>
              simp only [Functor.map, Except.map, htime]
              rfl
      | file mode time content =>
          simp only [Except.map, bind, Except.bind, Node.blur, pure, Except.pure, blurItem] at htime ⊢
          cases fs.read c path with
          | error e => rfl
          | ok bytes =>
              simp only [Functor.map, Except.map, htime]
              rfl

section Run

variable (hclock : c₁.still = c₂.still) (hfs : fs₁.blur true = fs₂.blur true)
include hclock hfs

/-- A path gives the same item in both file systems, apart from a time that is not fixed. -/
theorem blurItem_eq (path : Path) : (item c₁ fs₁ staging first fixed path).map (blurItem fixed) =
    (item c₂ fs₂ staging first fixed path).map (blurItem fixed) := by
  rw [← item_blur, hclock, hfs, item_blur]

/-- A walk from a path meets the same in both file systems. -/
theorem walk_eq (path : Path) : fs₁.walk c₁ path = fs₂.walk c₂ path := by
  rw [← FileSystem.walk_blur true c₁, hclock, hfs, FileSystem.walk_blur]

/-- Writing the entries ends in the same way, whatever the times are. -/
theorem sameEnding_writeEntries :
    Tar.SameEnding (writeEntries c₁ fs₁ staging first fixed) (writeEntries c₂ fs₂ staging first fixed) := by
  rw [writeEntries, writeEntries, walk_eq hclock hfs]
  split
  · exact .throw _
  · refine .bind (.forM fun path => ?_) fun _ => .pure _
    have hitem : SameOutcome (fun a b => blurItem fixed a = blurItem fixed b)
        (item c₁ fs₁ staging first fixed path) (item c₂ fs₂ staging first fixed path) :=
      .of_map_eq (blurItem_eq hclock hfs path)
    rcases hitem.error_or_ok with ⟨e, hitem₁, hitem₂⟩ | ⟨a, b, hitem₁, hitem₂, hblur⟩
    · simp only [hitem₁, hitem₂]
      exact .throw e
    · have hpath : (blurItem fixed a).path = (blurItem fixed b).path := by rw [hblur]
      have hbody : (blurItem fixed a).body = (blurItem fixed b).body := by rw [hblur]
      simp only [hitem₁, hitem₂]
      exact Tar.sameEnding_append hpath hbody

/-- With fixed times, the entries of the directory are written in the same way from both file systems.
-/
theorem writeEntries_eq (hfixed : fixed.isSome = true) :
    writeEntries c₁ fs₁ staging first fixed = writeEntries c₂ fs₂ staging first fixed := by
  have hitem (path : Path) :
      item c₁ fs₁ staging first fixed path = item c₂ fs₂ staging first fixed path := by
    have hkept (x : Except FileError Tar.Item) : x.map (blurItem fixed) = x := by
      cases x <;> simp [Except.map, blurItem, hfixed]
    rw [← hkept (item c₁ fs₁ staging first fixed path), blurItem_eq hclock hfs, hkept]
  simp only [writeEntries, walk_eq hclock hfs, hitem]

end Run

/-! ## The steps of archiving -/

/-- Filling files in the same way leaves the same, when as much as is kept of the contents is the same. -/
theorem fill_blur_eq (hclock : c₁.still = c₂.still) (hfs : fs₁.blur keep = fs₂.blur keep) {l : Location}
    {content₁ content₂ : Bytes} (hsame : keep = true → content₁ = content₂)
    (hmode : content₁.isEmpty = content₂.isEmpty ∨ ∀ mode time old,
      fs₁.get? l = some (.file mode time old) → FileSystem.modeWritten c₁ mode = mode) :
    (fs₁.fill c₁ l content₁).blur keep = (fs₂.fill c₂ l content₂).blur keep := by
  -- the two nodes are of one kind and have one mode; only files are filled
  have hnodes : (fs₁.get? l).map (·.blur keep) = (fs₂.get? l).map (·.blur keep) := by
    rw [← FileSystem.get?_blur, hfs, FileSystem.get?_blur]
  have hwritten : FileSystem.modeWritten c₁ = FileSystem.modeWritten c₂ := by
    have hsuperuser : c₁.still.superuser = c₂.still.superuser := by rw [hclock]
    change c₁.superuser = c₂.superuser at hsuperuser
    funext mode
    rw [FileSystem.modeWritten, FileSystem.modeWritten, hsuperuser]
  rw [FileSystem.fill, FileSystem.fill]
  cases hnode₁ : fs₁.get? l with
  | none =>
      cases hnode₂ : fs₂.get? l with
      | none => exact hfs
      | some node₂ => simp [hnode₁, hnode₂] at hnodes
  | some node₁ =>
      cases hnode₂ : fs₂.get? l with
      | none => simp [hnode₁, hnode₂] at hnodes
      | some node₂ =>
          rw [hnode₁, hnode₂] at hnodes
          have hblur := Option.some.inj hnodes
          cases node₁ with
          | directory => cases node₂ <;> first | exact hfs | simp [Node.blur] at hblur
          | link => cases node₂ <;> first | exact hfs | simp [Node.blur] at hblur
          | file mode₁ time₁ old₁ =>
              cases node₂ with
              | directory => simp [Node.blur] at hblur
              | link => simp [Node.blur] at hblur
              | file mode₂ time₂ old₂ =>
                  obtain rfl : mode₁ = mode₂ := congrArg Node.mode hblur
                  simp only [FileSystem.blur_set, hfs, Node.blur]
                  have hcontent : (if keep then content₁ else []) = if keep then content₂ else [] := by
                    cases keep with
                    | false => rfl
                    | true => simpa using hsame rfl
                  rw [hcontent]
                  congr 2
                  rcases hmode with hempty | hsettled
                  · rw [hempty, hwritten]
                  · have hstays := hsettled mode₁ time₁ old₁ hnode₁
                    rw [← hwritten, hstays, ite_self, ite_self]

/-- Writing to a file again takes no more bits from its mode. -/
theorem modeWritten_modeWritten (c : Caller) (mode : Mode) :
    FileSystem.modeWritten c (FileSystem.modeWritten c mode) = FileSystem.modeWritten c mode := by
  have hand (a : Mode) : mode &&& a &&& a = mode &&& a := by rw [BitVec.and_assoc, BitVec.and_self]
  have hwritten : mode.written.written = mode.written := by
    simp only [Mode.written]
    split
    · next h =>
        have hbit : (mode &&& 0o3777#12 &&& 0o5777#12 &&& 0o3777#12).getLsbD 3 = true := by
          simpa using h
        rw [if_pos hbit]
        simp [BitVec.and_assoc]
    · next h => rw [hand, if_neg h]
  cases hsuperuser : c.superuser <;> simp [FileSystem.modeWritten, hsuperuser, hwritten]

/-- The mode of a file that was opened for writing stays when the file is written to. -/
theorem modeWritten_of_openWrite {path : Path} {l : Location} {opened : FileSystem}
    (h : fs.openWrite c Mode.file path = .ok (l, opened)) :
    ∀ mode time old, opened.get? l = some (.file mode time old) →
      FileSystem.modeWritten c mode = mode := by
  have hnew : FileSystem.modeWritten c Mode.file.masked = Mode.file.masked := by
    cases hsuperuser : c.superuser
    · simp only [FileSystem.modeWritten, hsuperuser]
      decide
    · simp [FileSystem.modeWritten, hsuperuser]
  intro mode time old hnode
  cases FileSystem.opensFile_of_openWrite h with
  | occupied =>
      rw [FileSystem.get?_set, if_pos rfl] at hnode
      obtain ⟨rfl, -, -⟩ := Node.file.inj (Option.some.inj hnode)
      exact modeWritten_modeWritten c _
  | vacant =>
      rw [FileSystem.get?_set, if_pos rfl] at hnode
      obtain ⟨rfl, -, -⟩ := Node.file.inj (Option.some.inj hnode)
      exact hnew

section Steps

variable (hclock : c₁.still = c₂.still)
include hclock

/-- Writing the tar file ends in the same way, and with a fixed time writes the same. -/
theorem agrees_writeTar (hfs : fs₁.blur true = fs₂.blur true) (out : Path) :
    Storage.Agrees fixed.isSome c₁ c₂ fs₁ fs₂ (writeTar staging first out fixed)
      (writeTar staging first out fixed) Eq := by
  refine Storage.Agrees.andThen (fun _ => rfl) (Storage.agrees_isDirectory hclock hfs staging) ?_
  rintro isDirectory - fs₁ fs₂ hfs rfl
  cases isDirectory with
  | false => exact .throw (FileSystem.blur_eq_of_keep (fun _ => rfl) hfs) _
  | true =>
      have hopened : Storage.Agrees true c₁ c₂ fs₁ fs₂ (Storage.writeFile out [])
          (Storage.writeFile out []) Eq := by
        refine .change hclock hfs fun c fs => ?_
        rw [FileSystem.openWrite_blur]
        cases fs.openWrite c Mode.file out with
        | error e => rfl
        | ok opened =>
            simp only [Except.map, bind, Except.bind, pure, Except.pure, FileSystem.fill_blur]
      refine Storage.Agrees.andThen (fun _ => rfl) hopened ?_
      rintro - - fs₁ fs₂ hfs -
      have hending : SameOutcome Eq ((writeEntries c₁ fs₁ staging first fixed).run []).1
          ((writeEntries c₂ fs₂ staging first fixed).run []).1 := by
        have hsame : Tar.SameEnding (writeEntries c₁ fs₁ staging first fixed)
          (writeEntries c₂ fs₂ staging first fixed) := sameEnding_writeEntries hclock hfs
        rw [hsame [] []]
        exact .refl
      have hwritten (hfixed : fixed.isSome = true) :
          writeEntries c₁ fs₁ staging first fixed = writeEntries c₂ fs₂ staging first fixed :=
        writeEntries_eq hclock hfs hfixed
      have hfound : SameOutcome (fun a b => (a.1, a.2.blur true) = (b.1, b.2.blur true))
          (Lookup.find c₁ fs₁ true out) (Lookup.find c₂ fs₂ true out) := by
        apply SameOutcome.of_map_eq
        rw [← Lookup.find_blur, ← Lookup.find_blur, hclock, hfs]
      have hkept : fs₁.blur fixed.isSome = fs₂.blur fixed.isSome :=
        FileSystem.blur_eq_of_keep (fun _ => rfl) hfs
      -- something is written in any case, so that the modes are the same afterwards
      have hfull (written : Bytes) : (written ++ Tar.ending).isEmpty = false := by
        cases written <;> rfl
      rcases hfound.error_or_ok with ⟨e, h₁, h₂⟩ | ⟨⟨l, node₁⟩, ⟨l', node₂⟩, h₁, h₂, hplace⟩
      · constructor <;> simp only [Storage.exec_ofExec, h₁, h₂]
        · exact hkept
        · exact rfl
      · obtain rfl : l = l' := (Prod.ext_iff.1 hplace).1
        constructor <;> simp only [Storage.exec_ofExec, h₁, h₂]
        · refine fill_blur_eq hclock hkept (fun hfixed => ?_) (Or.inl ?_)
          · exact congrArg (fun w : Tar.Writer Nat => (w.run []).2 ++ Tar.ending) (hwritten hfixed)
          · rw [hfull, hfull]
        · exact hending

/-- Compressing a file ends in the same way, and when contents are kept it writes the same. -/
theorem agrees_compress (hfs : fs₁.blur keep = fs₂.blur keep) (codec : Codec) (source out : Path) :
    Storage.Agrees keep c₁ c₂ fs₁ fs₂ (compress codec source out) (compress codec source out) Eq := by
  refine .of_changes hfs ?_
  have hopen : SameOutcome (fun a b => a.blur keep = b.blur keep) (fs₁.openRead c₁ source)
      (fs₂.openRead c₂ source) := by
    apply SameOutcome.of_map_eq
    rw [← FileSystem.openRead_blur, ← FileSystem.openRead_blur, hclock, hfs]
  refine hopen.bind fun _ _ _ => ?_
  have hopened : SameOutcome (fun a b => (a.1, a.2.blur keep) = (b.1, b.2.blur keep))
      (fs₁.openWrite c₁ Mode.file out) (fs₂.openWrite c₂ Mode.file out) := by
    apply SameOutcome.of_map_eq
    rw [← FileSystem.openWrite_blur, ← FileSystem.openWrite_blur, hclock, hfs]
  rcases hopened.error_or_ok with
    ⟨e, hopened₁, hopened₂⟩ | ⟨⟨l, opened₁⟩, ⟨l', opened₂⟩, hopened₁, hopened₂, hsame⟩
  · rw [hopened₁, hopened₂]
    exact rfl
  · obtain ⟨hplace, hfiles⟩ : l = l' ∧ opened₁.blur keep = opened₂.blur keep := Prod.ext_iff.1 hsame
    obtain rfl := hplace
    rw [hopened₁, hopened₂]
    have hread : SameOutcome (fun a b => (if keep then a else []) = if keep then b else [])
        (opened₁.read c₁ source) (opened₂.read c₂ source) := by
      apply SameOutcome.of_map_eq
      rw [← FileSystem.read_blur, ← FileSystem.read_blur, hclock, hfiles]
    refine hread.bind fun content₁ content₂ hcontent => ?_
    refine fill_blur_eq hclock hfiles (fun hkeep => ?_) (Or.inr (modeWritten_of_openWrite hopened₁))
    have hsame : content₁ = content₂ := by simpa [hkeep] using hcontent
    rw [hsame]

/-- Archiving ends in the same way, and with a fixed time it makes the same archive. -/
theorem agrees_create (hfs : fs₁.blur true = fs₂.blur true) (codec : Codec) (r : Release) :
    Storage.Agrees fixed.isSome c₁ c₂ fs₁ fs₂ (create codec fixed r) (create codec fixed r)
      fun a b => fixed.isSome = true → a = b := by
  refine (agrees_writeTar hclock hfs r.tarPath).mapError.bind ?_
  rintro entries - fs₁ fs₂ hfs rfl
  refine (agrees_compress hclock hfs codec r.tarPath r.archivePath).mapError.bind ?_
  rintro - - fs₁ fs₂ hfs -
  have hdigest : Storage.Agrees fixed.isSome c₁ c₂ fs₁ fs₂ (digestFile r.archivePath)
      (digestFile r.archivePath) fun a b => fixed.isSome = true → a = b := by
    have hread : SameOutcome (fun a b => (if fixed.isSome then a else []) = if fixed.isSome then b else [])
        (fs₁.read c₁ r.archivePath) (fs₂.read c₂ r.archivePath) := by
      apply SameOutcome.of_map_eq
      rw [← FileSystem.read_blur, ← FileSystem.read_blur, hclock, hfs]
    have hsame : SameOutcome (fun a b => fixed.isSome = true → a = b)
        ((fs₁.read c₁ r.archivePath).map Sha256.digest) ((fs₂.read c₂ r.archivePath).map Sha256.digest) :=
      hread.map fun content₁ content₂ hcontent hfixed => congrArg _ (by simpa [hfixed] using hcontent)
    refine ⟨hfs, ?_⟩
    rw [digestFile, Storage.query, Storage.exec_ofExec, Storage.exec_ofExec]
    dsimp only
    exact hsame
  refine hdigest.mapError.bind ?_
  intro digest₁ digest₂ fs₁ fs₂ hfs hdigest
  refine (Storage.agrees_removeFile hclock hfs r.tarPath).mapError.bind ?_
  rintro - - fs₁ fs₂ hfs -
  refine (Storage.agrees_removeAll hclock hfs r.stagingDirectory).mapError.bind ?_
  rintro - - fs₁ fs₂ hfs -
  exact .pure hfs fun hfixed => by rw [hdigest hfixed]

end Steps

end Archive

end RpmRelease
