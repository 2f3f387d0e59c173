import Mathlib.Tactic.MkIffOfInductiveProp
import Handout.Project.Update
import Handout.Proofs.Archive.Extract

/-!
# Unpacking an exercise

An operation that uses the temporary directory starts in a session that is `Session.Ready`: its files are well-formed
and there is nothing yet where the temporary directory is to be.  This is decided for sessions without links
(`Session.Unlinked`).  `Project.unpack` is the part of an update that only
unpacks; it changes nothing outside the temporary directory and leaves no links in it (`unpack_ensures`).
-/

namespace Handout

open Handout.Action

/-- The files are well-formed, and the temporary directory can be made. -/
structure Session.Ready (s : Session) : Prop where
  sound : s.Sound
  room : ∃ dir name, s.scratch = dir ++ [name] ∧ s.files.get? dir = some .directory ∧ IsProper name
  fresh : s.files.get? s.scratch = none

theorem Session.Ready.scratch_ne_nil {s : Session} (h : s.Ready) : s.scratch ≠ [] := by
  obtain ⟨dir, name, hs, -, -⟩ := h.room
  rw [hs]
  simp

/-- A session with neither links nor locked directories, in which the temporary directory is new and apart from the
working directory. -/
@[mk_iff]
structure Session.Unlinked (s : Session) : Prop where
  entries : ∀ e ∈ s.files.entries,
    s.files.get? e.1.dropLast = some .directory ∧ ∀ name ∈ e.1.getLast?, IsProper name
  workingDir : s.files.get? s.workingDir = some .directory
  links : s.files.links = 0
  locked : s.locked = []
  room : s.files.get? s.scratch.dropLast = some .directory
  name : ∀ name ∈ s.scratch.getLast?, IsProper name
  fresh : s.files.get? s.scratch = none
  outside : ¬ s.scratch <+: s.workingDir
  apart : ¬ s.workingDir <+: s.scratch

instance (s : Session) : Decidable s.Unlinked := decidable_of_iff _ (Session.unlinked_iff s).symm

namespace Session.Unlinked

variable {s : Session}

theorem wellFormed (h : s.Unlinked) : s.files.WellFormed := Files.wellFormed_of_entries h.entries

theorem ready (h : s.Unlinked) : s.Ready := by
  have hne : s.scratch ≠ [] := fun hnil => h.outside (hnil ▸ List.nil_prefix)
  exact ⟨⟨h.wellFormed, h.workingDir⟩,
    ⟨_, _, (List.dropLast_append_getLast hne).symm, h.room, h.name _ (List.getLast_mem_getLast? hne)⟩, h.fresh⟩

theorem ne_link (h : s.Unlinked) (loc : Location) (target : String) : s.files.get? loc ≠ some (.link target) :=
  Files.get?_ne_link h.links loc target

end Session.Unlinked

/-- Nothing is at or below the place of the temporary directory. -/
theorem Session.Ready.get?_scratch {s : Session} (h : s.Ready) {x : Location} (hx : s.scratch <+: x) :
    s.files.get? x = none := by
  obtain ⟨rel, rfl⟩ := hx
  by_cases hr : rel = []
  · rw [hr, List.append_nil]
    exact h.fresh
  · exact h.sound.files.get?_below (by rw [h.fresh]; exact nofun) hr

/-- When the temporary directory is removed, everything at or below its place is as before. -/
theorem Session.Ready.get?_eraseTree {s : Session} (h : s.Ready) (f : Files) (x : Location) :
    (f.eraseTree s.scratch).get? x = s.files.get? x ∨
      ¬ s.scratch <+: x ∧ (f.eraseTree s.scratch).get? x = f.get? x := by
  by_cases hx : s.scratch <+: x
  · rw [Files.get?_eraseTree_of_below h.scratch_ne_nil hx, h.get?_scratch hx]
    exact .inl rfl
  · exact .inr ⟨hx, Files.get?_eraseTree_of_not_below h.scratch_ne_nil hx⟩

namespace Action

/-- Nothing is left of the temporary directory. -/
theorem perform_withScratch {α : Type} (body : Path → Action α) (s : Session) :
    (withScratch body).perform s =
      let o := (body s.scratch.path).perform { s with files := s.files.put s.scratch .directory }
      (o.1, { o.2 with files := o.2.files.eraseTree s.scratch }) := by
  unfold withScratch onFailure
  simp only [perform_bind, perform_get, perform_edit, perform_tryCatch]
  rw [show (⟨.root, s.scratch⟩ : Path) = s.scratch.path from rfl]
  rcases (body s.scratch.path).perform { s with files := s.files.put s.scratch .directory } with ⟨r, t⟩
  cases r <;> rfl

end Action

namespace Project

/-- Makes the temporary directory, extracts an archive into it and finds the project in it. -/
def unpack (archive : Path) : Action Path := do
  let loc := (← get).scratch
  edit fun f => f.put loc .directory
  Archive.extract archive loc.path
  Archive.findProject archive loc.path

/-- Since `before`, only the temporary directory has changed, and there are no links in it. -/
structure Unpacked (before s : Session) : Prop where
  sound : s.Sound
  scratchDir : s.scratch = before.scratch
  scratch : s.files.get? before.scratch = some .directory
  workingDir : s.workingDir = before.workingDir
  locked : s.locked = before.locked
  loaded : s.loaded = before.loaded
  noLink : ∀ rel target, s.files.get? (before.scratch ++ rel) ≠ some (.link target)
  outside : ∀ x, ¬ before.scratch <+: x → s.files.get? x = before.files.get? x

variable {before s : Session}

/-- Storing a file or a directory in the temporary directory. -/
private theorem Unpacked.put (h : Unpacked before s) {rel : List String} {c : String} {node : Node} (hc : IsProper c)
    (hd : s.files.get? (before.scratch ++ rel) = some .directory)
    (hold : s.files.get? (before.scratch ++ rel ++ [c]) = some .directory → node = .directory)
    (hnode : node.isLink = false) :
    Unpacked before { s with files := s.files.put (before.scratch ++ rel ++ [c]) node } := by
  have hne : before.scratch ++ rel ++ [c] ≠ [] := by simp
  have hdir : ∀ x, s.files.get? x = some .directory →
      (s.files.put (before.scratch ++ rel ++ [c]) node).get? x = some .directory := by
    intro x hx
    rw [Files.get?_put hne]
    split
    · rename_i he
      rw [hold (he ▸ hx)]
    · exact hx
  constructor
  · exact ⟨h.sound.files.put hd hc hold, hdir _ h.sound.workingDir⟩
  · exact h.scratchDir
  · exact hdir _ h.scratch
  · exact h.workingDir
  · exact h.locked
  · exact h.loaded
  · intro rel' target
    dsimp only
    rw [Files.get?_put hne]
    split
    · intro hlink
      cases hlink
      cases hnode
    · exact h.noLink rel' target
  · intro x hx
    dsimp only
    rw [Files.get?_put_of_ne hne, h.outside x hx]
    rintro rfl
    exact hx ⟨rel ++ [c], by rw [List.append_assoc]⟩

theorem Unpacked.log (h : Unpacked before s) (record : LogRecord) :
    Unpacked before { s with log := s.log ++ [record] } :=
  ⟨⟨h.sound.files, h.sound.workingDir⟩, h.scratchDir, h.scratch, h.workingDir, h.locked, h.loaded, h.noLink, h.outside⟩

theorem unpacks (before : Session) :
    Archive.Unpacks (Alone (Unpacked before)) before.scratch.path before.scratch fun _ => True :=
  .alone (fun _ hs => ⟨hs.sound, Session.leadsTo_path hs.sound hs.scratch, hs.noLink⟩)
    (fun _ _ _ hs _ hc hd _ => hs.put hc hd (fun _ => rfl) rfl)
    (fun _ _ _ _ _ hs _ hc hd hflag => hs.put hc hd (fun h => absurd h hflag.ne_directory) rfl)
    fun _ record hs => hs.log record

theorem unpacked_start (h : before.Ready) :
    Unpacked before { before with files := before.files.put before.scratch .directory } := by
  have hne := h.scratch_ne_nil
  obtain ⟨dir, name, hs, hdir, hname⟩ := h.room
  have hdirectory : ∀ x, before.files.get? x = some .directory →
      (before.files.put before.scratch .directory).get? x = some .directory := by
    intro x hx
    rw [Files.get?_put hne]
    split
    · rfl
    · exact hx
  have hfiles : (before.files.put before.scratch .directory).WellFormed := by
    rw [hs]
    exact h.sound.files.put hdir hname fun _ => rfl
  constructor
  · exact ⟨hfiles, hdirectory _ h.sound.workingDir⟩
  · rfl
  · exact Files.get?_put_self hne
  · rfl
  · rfl
  · rfl
  · intro rel target
    dsimp only
    rw [Files.get?_put hne]
    split
    · simp
    · rw [h.get?_scratch (List.prefix_append _ _)]
      simp
  · intro x hx
    refine Files.get?_put_of_ne hne ?_
    rintro rfl
    exact hx (List.prefix_refl _)

/-- Unpacking changes the temporary directory only, and the project that it finds lies in there. -/
theorem unpack_ensures (archive : Path) (h : before.Ready) :
    Ensures (fun s => s = before) (unpack archive)
      (fun root s => Unpacked before s ∧ IsDirectoryIn s.files before.scratch root) fun _ s => Unpacked before s := by
  have hextract : Ensures (Unpacked before) (Archive.extract archive before.scratch.path) (fun _ => Unpacked before)
      fun _ => Unpacked before := by
    have hnil : ∀ c ∈ ([] : List String), IsName c := fun c hc => absurd hc List.not_mem_nil
    have hensures := Archive.extract_ensures archive (unpacks before) (fun _ _ _ _ => trivial) hnil
    rw [Path.append_nil] at hensures
    exact hensures.mono (fun _ hs => hs) (fun _ _ hs => hs.1) fun _ _ hs => hs
  have hfind : ∀ f, Ensures (fun s => Unpacked before s ∧ s.files = f) (Archive.findProject archive before.scratch.path)
      (fun root s => Unpacked before s ∧ IsDirectoryIn s.files before.scratch root) fun _ s => Unpacked before s := by
    intro f s hs
    obtain ⟨hs, rfl⟩ := hs
    refine (Archive.findProject_ensures archive hs.scratch (P := fun t => Unpacked before t ∧ t.files = s.files)
      (fun t ht => ⟨ht.1.sound, fun rel => by rw [ht.2], hs.noLink⟩)
      (fun t record ht => ⟨ht.1.log record, ht.2⟩) s ⟨hs, rfl⟩).mono ?_ fun _ t ht => ht.1
    intro root t ht
    obtain ⟨⟨ht, hfiles⟩, hroot⟩ := ht
    rw [hfiles]
    exact ⟨ht, hroot⟩
  refine Ensures.get_bind_of_eq ?_
  refine Ensures.bind (Ensures.edit (Q := fun _ => Unpacked before) ?_) fun _ => hextract.bind fun _ => ?_
  · rintro s rfl
    exact unpacked_start h
  · exact fun s hs => hfind s.files s ⟨hs, rfl⟩

end Project

end Handout
