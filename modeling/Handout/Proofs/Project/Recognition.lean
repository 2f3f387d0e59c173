import Handout.Proofs.Archive.Root
import Handout.Proofs.Project.Marks

/-!
# Recognizing a project in a directory that can be listed

In a directory in which there are no links and nothing is locked, a search for a project comes to an end without a
failure, and finds the first directory by depth that bears a mark (`perform_findProject?`).
-/

namespace Handout

open Handout.Action Session

variable {s u : Session} {base : Path} {k top : Location}

namespace Archive

open Classical in
/-- In a directory that can be listed, the search comes to the directories by depth and finds the first one that bears a
mark. -/
theorem perform_findProject? (h : u.Listed base k) :
    (findProject? base).perform u = (.ok (((u.files.visits k (u.files.entries.length + 2) [[]]).find? fun rel =>
      decide (∃ e : Ecosystem, e.IsBorne (u.files.content (k ++ rel)))).map base.append), u) := by
  refine perform_findDirectory ⟨h.sound, h.leads, fun rel _ => h.unlocked rel, fun rel target hlink => ?_⟩ fun rel hd => ?_
  · exact absurd hlink (h.noLink rel target)
  · exact (Ecosystem.tells_isProjectRoot (h.below hd)).perform

/-- A directory at most one level below another one is found there exactly if it bears a mark and the other one does not,
provided that nothing else lies beside it. -/
theorem findProject?_eq_iff (h : u.Listed base k) {place : List String} (hlength : place.length ≤ 1)
    (hdir : u.files.get? (k ++ place) = some .directory)
    (halone : ∀ rel, u.files.get? (k ++ rel) = some .directory → place <+: rel ∨ rel <+: place) :
    (findProject? base).perform u = (.ok (some (base.append place)), u) ↔
      (∃ e : Ecosystem, e.IsBorne (u.files.content (k ++ place))) ∧
        (place ≠ [] → ∀ e : Ecosystem, ¬ e.IsBorne (u.files.content k)) := by
  classical
  rw [perform_findProject? h]
  have hbound : u.files.entries.length + 1 < u.files.entries.length + 2 := Nat.lt_succ_self _
  constructor
  · intro hfound
    obtain ⟨rel, hrel, hsame⟩ := Option.map_eq_some_iff.1 (Except.ok.inj (Prod.mk.inj hfound).1)
    obtain rfl : rel = place := List.append_cancel_left (congrArg Path.parts hsame)
    obtain ⟨-, hpassed, hleast⟩ := Files.least_of_find?_visits h.sound.files h.directory hbound hrel
    refine ⟨of_decide_eq_true hpassed, fun hne e he => ?_⟩
    refine hleast [] (by rw [List.append_nil, h.directory]) (decide_eq_true ⟨e, ?_⟩) (.of_shorter (List.length_pos_iff.2 hne))
    rwa [List.append_nil]
  · rintro ⟨hplace, htop⟩
    cases hfind : (u.files.visits k (u.files.entries.length + 2) [[]]).find? fun rel =>
      decide (∃ e : Ecosystem, e.IsBorne (u.files.content (k ++ rel))) with
    | none =>
      have hfails := (Files.find?_visits_eq_none h.sound.files h.directory hbound).1 hfind place hdir
      exact absurd hplace (of_decide_eq_false hfails)
    | some rel =>
      obtain ⟨hrel, hpassed, hleast⟩ := Files.least_of_find?_visits h.sound.files h.directory hbound hfind
      suffices rel = place by
        rw [this]
        rfl
      by_contra hne
      rcases halone rel hrel with ⟨rest, rfl⟩ | hover
      · -- what lies below the place is deeper
        refine hleast place hdir (decide_eq_true hplace) (.of_shorter ?_)
        have hrest : rest ≠ [] := fun hnil => hne (by rw [hnil, List.append_nil])
        have hpos := List.length_pos_iff.2 hrest
        rw [List.length_append]
        omega
      · -- above the place there is the directory itself
        have hshorter : rel.length < place.length :=
          Nat.lt_of_le_of_ne hover.length_le fun heq => hne (hover.eq_of_length heq)
        obtain rfl : rel = [] := List.length_eq_zero_iff.1 (by omega)
        obtain ⟨e, he⟩ := of_decide_eq_true hpassed
        rw [List.append_nil] at he
        exact htop (fun hnil => hne hnil.symm) e he

end Archive

/-- The search for a project ends without a failure, and what it finds is a directory there. -/
theorem answered_findProject? (h : s.Listable top) :
    Ensures (fun t => t = s) (Archive.findProject? top.path)
      (fun found t => t = s ∧ ∀ root, found = some root → IsDirectoryIn s.files top root) fun _ _ => False := by
  rintro t rfl
  rw [Archive.perform_findProject? h.listed]
  refine ⟨rfl, fun root hroot => ?_⟩
  obtain ⟨rel, hrel, rfl⟩ := Option.map_eq_some_iff.1 hroot
  exact ⟨rel, rfl, (Files.least_of_find?_visits h.sound.files h.directory (Nat.lt_succ_self _) hrel).1⟩

end Handout
