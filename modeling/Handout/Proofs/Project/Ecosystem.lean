import Handout.Project.Ecosystem
import Handout.Proofs.Files.Traverse

/-!
# Ecosystems

Recognizing a project changes nothing.  The parts of a recognized project are the default parts of its ecosystem and
those that are configured.
-/

namespace Handout.Ecosystem

open Handout.Action

variable {α : Type}

theorem looks_anyOf {test : α → Action Bool} (h : ∀ a, Looks (test a)) (l : List α) : Looks (anyOf test l) := by
  induction l with
  | nil => exact Looks.pure _
  | cons a l ih =>
    refine (h a).bind fun b => ?_
    cases b with
    | true => exact Looks.pure _
    | false => exact ih

theorem looks_visibleNames (dir : Path) : Looks (visibleNames dir) := by
  refine (Looks.query _).tryCatch fun e => ?_
  split
  · exact Looks.pure _
  · exact Looks.throw _

theorem looks_leadsToProjectFile (path : Path) : Looks (leadsToProjectFile path) := by
  refine (looks_isDirectory path).bind fun b => ?_
  cases b with
  | true => exact (looks_visibleNames path).bind fun _ => Looks.pure _
  | false => exact Looks.pure _

theorem looks_holdsProjectFile (dir : Path) : Looks (holdsProjectFile dir) := by
  refine (looks_visibleNames dir).bind fun names => ?_
  split
  · exact Looks.pure _
  · exact looks_anyOf (fun _ => looks_leadsToProjectFile _) _

theorem looks_recognizes (e : Ecosystem) (project : Path) : Looks (e.recognizes project) := by
  unfold recognizes
  split
  · refine (looks_isDirectory _).bind fun b => ?_
    cases b with
    | true => exact looks_holdsProjectFile _
    | false => exact Looks.pure _
  · exact looks_anyOf (fun _ => looks_isFile _) _

theorem looks_find? (project : Path) : Looks (find? project) := by
  unfold find?
  generalize all = es
  induction es with
  | nil => exact Looks.pure _
  | cons e es ih =>
    refine (looks_recognizes e project).bind fun b => ?_
    cases b with
    | true => exact Looks.pure _
    | false => exact ih

theorem looks_isProjectRoot (path : Path) : Looks (isProjectRoot path) := by
  refine (looks_isDirectory path).bind fun b => ?_
  cases b with
  | true => exact (looks_find? path).bind fun _ => Looks.pure _
  | false => exact Looks.pure _

/-! ### The parts of a project -/

variable {e : Ecosystem} {c : Config} {q : Path}

theorem style_eq_make_iff : e.style = .make ↔ e = .make := by
  cases e <;> decide

theorem mem_studentPaths : q ∈ (e.layoutOf c).studentPaths ↔ q ∈ e.defaultStudentPaths ∨ q ∈ c.extraStudentFiles :=
  List.mem_eraseDups.trans List.mem_append

theorem mem_exercisePaths : q ∈ (e.layoutOf c).exercisePaths ↔ q ∈ e.defaultExercisePaths ∨ q ∈ c.extraExerciseFiles :=
  List.mem_eraseDups.trans List.mem_append

/-- What holds of the default parts and of the configured ones holds of all parts. -/
theorem forall_mem_layoutOf {P : Path → Prop} (hdefault : ∀ q ∈ e.defaultStudentPaths ++ e.defaultExercisePaths, P q)
    (hextra : ∀ q ∈ c.extraStudentFiles ++ c.extraExerciseFiles, P q) :
    ∀ q ∈ (e.layoutOf c).studentPaths ++ (e.layoutOf c).exercisePaths, P q := by
  rw [List.forall_mem_append] at hdefault hextra ⊢
  exact ⟨fun q hq => (mem_studentPaths.1 hq).elim (hdefault.1 q) (hextra.1 q),
    fun q hq => (mem_exercisePaths.1 hq).elim (hdefault.2 q) (hextra.2 q)⟩

end Handout.Ecosystem
