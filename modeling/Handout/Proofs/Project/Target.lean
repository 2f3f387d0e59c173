import Handout.Proofs.Project.Policy

/-!
# Where a project is

The path of a project leads to a directory, or the project is missing: then a leading part of the path leads to a
directory, the next name does not, and there is no `..` behind it.  Once there is a directory at the place of a
missing project, its path leads there (`Target.leads`).
-/

namespace Handout

open Handout.Action

/-- Where a project is. -/
inductive Target (s : Session) (project : Path) (loc : Location) : Prop
  | present (leads : s.LeadsTo project loc)
  /-- The first name leads to no directory, whatever the temporary directory holds. -/
  | missing {known : Path} {d : Location} {name : String} {rest : List String}
      (path : project = known.append (name :: rest)) (place : loc = d ++ name :: rest) (known_leads : s.LeadsTo known d)
      (named : ∀ c ∈ name :: rest, IsName c)
      (nowhere : ∀ t : Session, t.Sound → t.workingDir = s.workingDir →
        (∀ x, ¬ s.scratch <+: x → t.files.get? x = s.files.get? x) → ∀ e, ¬ t.LeadsTo (known.append [name]) e)

namespace Target

variable {s t : Session} {project : Path} {loc : Location} {rel : List String}

/-- The path of a project leads to its place once there is a directory. -/
theorem leads (h : Target s project loc) (ht : t.Sound) (hleads : ∀ p e, s.LeadsTo p e → t.LeadsTo p e)
    (hd : t.files.get? loc = some .directory) : t.LeadsTo project loc := by
  cases h with
  | present h => exact hleads _ _ h
  | missing path place known_leads =>
    subst path place
    exact (hleads _ _ known_leads).append ht hd

theorem self_leads (h : Target s project loc) (hs : s.Sound) (hd : s.files.get? loc = some .directory) :
    s.LeadsTo project loc := h.leads hs (fun _ _ h => h) hd

/-- If anything is in the place of a project, its path leads there. -/
theorem leads_of_exists (h : Target s project loc) (hs : s.Sound) (hr : rel ≠ [])
    (hn : s.files.get? (loc ++ rel) ≠ none) : s.LeadsTo project loc :=
  h.self_leads hs (hs.files.ancestor hn hr)

/-- Where nothing is stored in a project, nothing is found. -/
theorem eq_none_of_look (h : Target s project loc) (hs : s.Sound)
    (hl : ∀ rel target, rel ≠ [] → s.files.get? (loc ++ rel) ≠ some (.link target)) (hp : ∀ c ∈ rel, IsPlain c)
    (hr : rel ≠ []) (hn : s.files.get? (loc ++ rel) = none) {node : Option Node}
    (hlook : s.look true (project.append rel) = .ok node) : node = none := by
  cases h with
  | present h =>
    have hclear : s.files.Clear loc rel := fun first target hne _ => hl first target hne
    rw [Session.look_append h hs hp hclear (.inr rfl) hlook, hn]
    split <;> rfl
  | @missing known d name rest path place known_leads named nowhere =>
    subst path
    unfold Session.look at hlook
    split at hlook
    · cases hlook
      rfl
    · split at hlook
      · rename_i place hf
        have hne : rest ++ rel ≠ [] := by simp [hr]
        rw [Path.append_append, List.cons_append, ← List.singleton_append, ← Path.append_append] at hf
        obtain ⟨e, he⟩ := Session.leads_of_find_append hf (.inl hne)
        exact absurd he (nowhere s hs rfl (fun _ _ => rfl) e)
      · cases hlook
      · cases hlook
        rfl

end Target

end Handout
