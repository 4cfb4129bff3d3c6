import Mathlib.Logic.Relation
import RpmRelease.Proofs.FileSystem.Storage

/-!
# The changes that programs make

What a program leaves of a file system when it fails is as important as what it leaves when it
succeeds.  `Storage.Makes` says of a program that it makes nothing but changes of one sort, one after
the other, however it ends; and what holds of its result when it succeeds.  The rules follow the ways
in which programs are put together, so that only single changes have to be looked at.
-/

set_option autoImplicit false

namespace RpmRelease.Storage

open Relation (ReflTransGen)

variable {ε δ α β ι : Type} {step : FileSystem → FileSystem → Prop} {caller : Caller}
  {fs : FileSystem}

/-- However a program ends, it has made changes of one sort, and the result of its success is as
described. -/
structure Makes (step : FileSystem → FileSystem → Prop) (caller : Caller) (fs : FileSystem)
    (program : Storage ε α) (Q : α → FileSystem → Prop) : Prop where
  changes : ReflTransGen step fs (program.exec caller fs).2
  result : ∀ a, (program.exec caller fs).1 = .ok a → Q a (program.exec caller fs).2

/-- The changes that one execution has made. -/
theorem Makes.changes_of_exec {x : Storage ε α} {Q : α → FileSystem → Prop} {outcome : Except ε α}
    {fs' : FileSystem} (hx : Makes step caller fs x Q) (h : x.exec caller fs = (outcome, fs')) :
    ReflTransGen step fs fs' := by
  have hchanges := hx.changes
  rwa [h] at hchanges

/-- Returning a value makes no changes. -/
theorem Makes.pure {a : α} {Q : α → FileSystem → Prop} (h : Q a fs) :
    Makes step caller fs (pure a : Storage ε α) Q where
  changes := .refl
  result := fun _ hok => Except.ok.inj hok ▸ h

/-- Throwing makes no changes. -/
theorem Makes.throw {e : ε} {Q : α → FileSystem → Prop} :
    Makes step caller fs (throw e : Storage ε α) Q where
  changes := .refl
  result := fun a hok => by
    have herror : (Except.error e : Except ε α) = .ok a := hok
    exact absurd herror (by simp)

/-- What every change keeps is kept by all of them. -/
theorem keeps_of_changes {P : FileSystem → Prop} {fs' : FileSystem}
    (hchanges : ReflTransGen (fun before after => P before → P after) fs fs') (h : P fs) : P fs' := by
  induction hchanges with
  | refl => exact h
  | tail _ hlast ih => exact hlast ih

/-- What every change keeps is kept, however the program ends. -/
theorem Makes.keeps {P : FileSystem → Prop} {x : Storage ε α} {Q : α → FileSystem → Prop}
    (hx : Makes (fun before after => P before → P after) caller fs x Q) (h : P fs) :
    P (x.exec caller fs).2 :=
  keeps_of_changes hx.changes h

/-- Programs one after the other make their changes one after the other. -/
theorem Makes.bind {x : Storage ε α} {f : α → Storage ε β} {Q : α → FileSystem → Prop}
    {R : β → FileSystem → Prop} (hx : Makes step caller fs x Q)
    (hf : ∀ a fs', ReflTransGen step fs fs' → Q a fs' → Makes step caller fs' (f a) R) :
    Makes step caller fs (x >>= f) R := by
  obtain ⟨hchanges, hresult⟩ := hx
  rcases hrun : x.exec caller fs with ⟨e | a, fs'⟩
  · rw [hrun] at hchanges
    have hexec : (x >>= f).exec caller fs = (.error e, fs') := by rw [exec_bind, hrun]
    refine ⟨by rw [hexec]; exact hchanges, fun b hok => ?_⟩
    simp [hexec] at hok
  · rw [hrun] at hchanges hresult
    have hexec : (x >>= f).exec caller fs = (f a).exec caller fs' := by rw [exec_bind, hrun]
    obtain ⟨hrest, hresult'⟩ := hf a fs' hchanges (hresult a rfl)
    exact ⟨by rw [hexec]; exact hchanges.trans hrest, by rw [hexec]; exact hresult'⟩

/-- What is known of the result may be weakened. -/
theorem Makes.weaken {x : Storage ε α} {Q Q' : α → FileSystem → Prop}
    (hx : Makes step caller fs x Q)
    (hQ : ∀ a fs', ReflTransGen step fs fs' → Q a fs' → Q' a fs') :
    Makes step caller fs x Q' where
  changes := hx.changes
  result := fun a hok => hQ a _ hx.changes (hx.result a hok)

/-- What is known of the changes may be weakened. -/
theorem Makes.imp {step' : FileSystem → FileSystem → Prop} {x : Storage ε α}
    {Q : α → FileSystem → Prop} (hx : Makes step caller fs x Q)
    (h : ∀ fs', ReflTransGen step fs fs' → ReflTransGen step' fs fs') :
    Makes step' caller fs x Q where
  changes := h _ hx.changes
  result := hx.result

/-- A question makes no changes, and its result is the answer. -/
theorem Makes.query {f : Caller → FileSystem → Except ε α} :
    Makes step caller fs (Storage.query f) fun a fs' => fs' = fs ∧ f caller fs = .ok a where
  changes := .refl
  result := fun _ hok => ⟨rfl, hok⟩

/-- Looking at the files makes no changes. -/
theorem Makes.get : Makes step caller fs (get : Storage ε FileSystem) fun found fs' =>
    fs' = fs ∧ found = fs where
  changes := .refl
  result := fun _ hok => ⟨rfl, (Except.ok.inj hok).symm⟩

/-- Looking at how a question is answered makes no changes. -/
theorem Makes.attempt_query {f : Caller → FileSystem → Except ε α} :
    Makes step caller fs (Storage.attempt (Storage.query f) : Storage δ (Except ε α)) fun outcome fs' =>
      fs' = fs ∧ f caller fs = outcome where
  changes := .refl
  result := fun _ hok => ⟨rfl, Except.ok.inj hok⟩

/-- A single change is one of the sort that it may be. -/
theorem Makes.change {f : Caller → FileSystem → Except ε FileSystem}
    (h : ∀ fs', (Storage.change f).exec caller fs = (.ok (), fs') → step fs fs') :
    Makes step caller fs (Storage.change f) fun _ _ => True := by
  rcases hrun : f caller fs with e | fs'
  · have hexec : (Storage.change f).exec caller fs = (.error e, fs) := by
      rw [Storage.change, exec_ofExec, hrun]
    exact ⟨by rw [hexec], fun _ _ => trivial⟩
  · have hexec : (Storage.change f).exec caller fs = (.ok (), fs') := by
      rw [Storage.change, exec_ofExec, hrun]
    exact ⟨by rw [hexec]; exact .single (h fs' hexec), fun _ _ => trivial⟩

/-- Looking at the outcome of a program makes the changes of the program. -/
theorem Makes.attempt {x : Storage ε α} {Q : α → FileSystem → Prop}
    (hx : Makes step caller fs x Q) :
    Makes step caller fs (Storage.attempt x : Storage δ (Except ε α)) fun outcome fs' =>
      ∀ a, outcome = .ok a → Q a fs' where
  changes := hx.changes
  result := fun outcome hok => by
    obtain rfl : (x.exec caller fs).1 = outcome := Except.ok.inj hok
    exact hx.result

/-- A single change whose failure is a value, too: when it fails, nothing has changed. -/
theorem Makes.attempt_change {f : Caller → FileSystem → Except ε FileSystem}
    (h : ∀ fs', (Storage.change f).exec caller fs = (.ok (), fs') → step fs fs') :
    Makes step caller fs (Storage.attempt (Storage.change f) : Storage δ (Except ε Unit))
      fun outcome fs' => ∀ e, outcome = .error e → fs' = fs ∧ f caller fs = .error e where
  changes := (Makes.change h).changes
  result := fun outcome hok e herror => by
    obtain rfl : ((Storage.change f).exec caller fs).1 = outcome := Except.ok.inj hok
    rcases hrun : f caller fs with cause | after
    · have hexec : (Storage.change f).exec caller fs = (.error cause, fs) := by
        rw [Storage.change, exec_ofExec, hrun]
      rw [hexec] at herror
      refine ⟨?_, by rw [Except.error.inj herror]⟩
      rw [Storage.attempt, exec_ofExec, hexec]
    · have hexec : (Storage.change f).exec caller fs = (.ok (), after) := by
        rw [Storage.change, exec_ofExec, hrun]
      rw [hexec] at herror
      exact absurd herror (by simp)

/-- Turning errors into others makes the changes of the program. -/
theorem Makes.mapError {f : ε → δ} {x : Storage ε α} {Q : α → FileSystem → Prop}
    (hx : Makes step caller fs x Q) : Makes step caller fs (Storage.mapError f x) Q where
  changes := hx.changes
  result := fun a hok => hx.result a (Run.of_mapError_ok hok)

/-- Counting over items makes the changes that the program of each item makes. -/
theorem Makes.countOver {program : ι → Storage ε Nat} {items : List ι}
    (h : ∀ item ∈ items, ∀ fs', ReflTransGen step fs fs' →
      Makes step caller fs' (program item) fun _ _ => True) :
    Makes step caller fs (Storage.countOver program items) fun _ _ => True := by
  induction items generalizing fs with
  | nil => exact .pure trivial
  | cons item items ih =>
      refine (h item List.mem_cons_self fs .refl).bind fun count fs' hfirst _ => ?_
      refine Makes.bind (ih fun other hother fs'' hrest => ?_) fun _ _ _ _ => .pure trivial
      exact h other (List.mem_cons_of_mem item hother) fs'' (hfirst.trans hrest)

/-- Every item that has been counted over was gone over successfully on the way. -/
theorem exists_exec_of_countOver_ok {program : ι → Storage ε Nat} {items : List ι} {n : Nat}
    {fs' : FileSystem}
    (h : ∀ item ∈ items, ∀ fs₁, ReflTransGen step fs fs₁ →
      Makes step caller fs₁ (program item) fun _ _ => True)
    (hrun : (Storage.countOver program items).exec caller fs = (.ok n, fs')) :
    ∀ item ∈ items, ∃ fs₁ m fs₂, ReflTransGen step fs fs₁ ∧
      (program item).exec caller fs₁ = (.ok m, fs₂) ∧ ReflTransGen step fs₂ fs' := by
  induction items generalizing fs n with
  | nil => simp
  | cons first items ih =>
      obtain ⟨m, middle, hfirst, hrest⟩ := of_exec_bind_ok hrun
      obtain ⟨k, after, hlater, hlast⟩ := of_exec_bind_ok hrest
      obtain ⟨-, rfl⟩ := Run.ok_inj hlast
      have hbefore := (h first List.mem_cons_self fs .refl).changes_of_exec hfirst
      have hlaterMakes : ∀ item ∈ items, ∀ fs₁, ReflTransGen step middle fs₁ →
          Makes step caller fs₁ (program item) fun _ _ => True := fun item hitem fs₁ hchanges =>
        h item (List.mem_cons_of_mem first hitem) fs₁ (hbefore.trans hchanges)
      intro item hitem
      rcases List.mem_cons.1 hitem with rfl | hitem
      · exact ⟨fs, m, middle, .refl, hfirst, (Makes.countOver hlaterMakes).changes_of_exec hlater⟩
      · obtain ⟨fs₁, j, fs₂, hreach, hexec, hleave⟩ := ih hlaterMakes hlater item hitem
        exact ⟨fs₁, j, fs₂, hbefore.trans hreach, hexec, hleave⟩

/-- Programs for the items of a list make the changes that the program of each item makes. -/
theorem Makes.forM {program : ι → Storage ε Unit} {items : List ι}
    (h : ∀ item ∈ items, ∀ fs', ReflTransGen step fs fs' →
      Makes step caller fs' (program item) fun _ _ => True) :
    Makes step caller fs (items.forM program) fun _ _ => True := by
  induction items generalizing fs with
  | nil => exact .pure trivial
  | cons item items ih =>
      refine (h item List.mem_cons_self fs .refl).bind fun _ fs' hfirst _ => ?_
      exact ih fun other hother fs'' hrest =>
        h other (List.mem_cons_of_mem item hother) fs'' (hfirst.trans hrest)

/-- Programs that give something for each item of a list make the changes that the program of each
item makes. -/
theorem Makes.mapM {program : ι → Storage ε α} {items : List ι}
    (h : ∀ item ∈ items, ∀ fs', ReflTransGen step fs fs' →
      Makes step caller fs' (program item) fun _ _ => True) :
    Makes step caller fs (items.mapM program) fun _ _ => True := by
  induction items generalizing fs with
  | nil => exact .pure trivial
  | cons item items ih =>
      rw [List.mapM_cons]
      refine (h item List.mem_cons_self fs .refl).bind fun _ fs' hfirst _ => ?_
      refine Makes.bind (ih fun other hother fs'' hrest => ?_) fun _ _ _ _ => .pure trivial
      exact h other (List.mem_cons_of_mem item hother) fs'' (hfirst.trans hrest)

end RpmRelease.Storage
