import Handout.Proofs.Project.Marks

/-!
# The style of a project

How a project is packaged depends on three files at its top: the build files of Maven, of Ant and of make, in this
order of precedence (`style_of_find?`).
-/

namespace Handout

open Session

variable {s : Session} {project : Path} {d : Location} {e : Ecosystem} {content : Content}

namespace Ecosystem

/-- The style in which a project with some content is packaged. -/
def styleOf (content : Content) : PackagingStyle :=
  if Session.isFileNode (content ["pom.xml"]) then .maven
  else if Session.isFileNode (content ["build.xml"]) then .generic
  else if Session.isFileNode (content ["Makefile"]) then .make
  else .generic

/-- An ecosystem with one mark is borne by a project that has this file at its top. -/
theorem isBorne_of_marks {name : String} (hmarks : e.marks = [⟨.relative, [name]⟩]) :
    e.IsBorne content ↔ isFileNode (content [name]) = true := by
  have hborne : (∃ rel, isFileNode (content rel) = true ∧ ∃ mark ∈ e.marks, rel = mark.parts) ↔
      isFileNode (content [name]) = true := by
    simp [hmarks]
  cases e with
  | csharp => cases hmarks
  | _ => exact hborne

/-- The style of a recognized project. -/
theorem style_of_find? (h : s.Listed project d) (hfind : ((find? project).perform s).1 = .ok (some e)) :
    e.style = styleOf (s.files.content d) := by
  have hmarks : maven.marks = [⟨.relative, ["pom.xml"]⟩] ∧ ant.marks = [⟨.relative, ["build.xml"]⟩] ∧
      make.marks = [⟨.relative, ["Makefile"]⟩] := by decide +kernel
  have hmaven : maven.IsBorne (s.files.content d) ↔ _ := isBorne_of_marks hmarks.1
  have hant : ant.IsBorne (s.files.content d) ↔ _ := isBorne_of_marks hmarks.2.1
  have hmake : make.IsBorne (s.files.content d) ↔ _ := isBorne_of_marks hmarks.2.2
  have hborne := ((find?_eq_some_iff h).1 hfind).1
  rw [perform_find? h, Except.ok.injEq] at hfind
  unfold styleOf
  by_cases hm : maven.IsBorne (s.files.content d)
  · obtain rfl : maven = e := by simpa [all, hm] using hfind
    exact (if_pos (hmaven.1 hm)).symm
  rw [if_neg (mt hmaven.2 hm)]
  by_cases ha : ant.IsBorne (s.files.content d)
  · obtain rfl : ant = e := by simpa [all, hm, ha] using hfind
    exact (if_pos (hant.1 ha)).symm
  rw [if_neg (mt hant.2 ha)]
  by_cases hk : make.IsBorne (s.files.content d)
  · obtain rfl : make = e := by simpa [all, hm, ha, hk] using hfind
    exact (if_pos (hmake.1 hk)).symm
  rw [if_neg (mt hmake.2 hk)]
  cases e with
  | maven => exact absurd hborne hm
  | ant => exact absurd hborne ha
  | make => exact absurd hborne hk
  | csharp => rfl
  | python => rfl

end Ecosystem

end Handout
