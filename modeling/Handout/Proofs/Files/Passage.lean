import Handout.Proofs.Files.Store

/-!
# Directories that can be made

Some names below the directory to which a path leads are a `Passage` if nothing but directories is stored on the way.
Then the directory of these names can be made with what is missing around it (`makeDirectories_succeeds`), also where
there are links elsewhere in the directory.
-/

namespace Handout.Action

open Session

variable {s t : Session} {p : Path} {d : Location} {place first : List String} {name : String} {k : Nat}

/-- An operation that succeeds. -/
abbrev Succeeds {α : Type} (P : Session → Prop) (act : Action α) : Prop := Ensures P act (fun _ _ => True) fun _ _ => False

theorem Succeeds.during {α : Type} {P : Session → Prop} {act : Action α} (h : Succeeds P act) (activity : Activity)
    (path : Path) : Succeeds P (Action.during activity path act) := Ensures.tryCatch h fun _ _ => False.elim

/-- By some names below the directory to which a path leads, directories may be made: all that is stored there are
directories. -/
structure Passage (s : Session) (p : Path) (d : Location) (place : List String) : Prop where
  sound : s.Sound
  leads : s.LeadsTo p d
  proper : ∀ c ∈ place, IsProper c
  free : ¬ Blocked (s.files.content d) place

namespace Passage

theorem cases (h : Passage s p d place) (hfirst : first <+: place) :
    s.files.get? (d ++ first) = none ∨ s.files.get? (d ++ first) = some .directory := by
  by_contra hother
  rw [not_or] at hother
  exact h.free ⟨first, hfirst, hother⟩

theorem ne_link (h : Passage s p d place) (hfirst : first <+: place) (target : String) :
    s.files.get? (d ++ first) ≠ some (.link target) := by
  rcases h.cases hfirst with hnode | hnode <;> rw [hnode] <;> exact nofun

theorem way (h : Passage s p d place) (hfirst : first <+: place) : Way s p d first :=
  ⟨h.sound, h.leads, fun _ target _ hq => h.ne_link (hq.trans hfirst) target⟩

/-- Making a directory on the way leaves it free. -/
theorem put (h : Passage s p d place) (hfirst : first ++ [name] <+: place)
    (hdir : s.files.get? (d ++ first) = some .directory) (hnone : s.files.get? (d ++ first ++ [name]) = none) :
    Passage { s with files := s.files.put (d ++ first ++ [name]) .directory } p d place := by
  have hne : d ++ first ++ [name] ≠ [] := by simp
  have hkeep : ∀ {x node}, s.files.get? x = some node →
      (s.files.put (d ++ first ++ [name]) .directory).get? x = some node := by
    intro x node hx
    rw [Files.get?_put_of_ne hne, hx]
    rintro rfl
    rw [hnone] at hx
    cases hx
  refine ⟨h.sound.put hdir (h.proper name (hfirst.subset (by simp))) fun _ => rfl, ?_, h.proper, ?_⟩
  · exact h.leads.mono rfl (fun _ hx => hkeep hx) fun _ _ hx => hkeep hx
  · rintro ⟨q, hq, hn, hd⟩
    unfold Files.content at hn hd
    dsimp only at hn hd
    rw [Files.get?_put hne] at hn hd
    split at hd
    · exact hd rfl
    · rename_i hother
      rw [if_neg hother] at hn
      exact h.free ⟨q, hq, hn, hd⟩

/-- The last directory can be made in the one around it. -/
theorem ensureDirectory_succeeds {w : WrittenPath} (hfirst : first ++ [name] <+: place)
    (hw : w.path = p.append (first ++ [name])) :
    Ensures (fun t => Passage t p d place ∧ t.files.get? (d ++ first) = some .directory) (ensureDirectory w)
      (fun _ t => Passage t p d place ∧ t.files.get? (d ++ (first ++ [name])) = some .directory) fun _ _ => False := by
  rintro t ⟨ht, hdir⟩
  have hnode := ht.cases hfirst
  rw [← List.append_assoc] at hnode ⊢
  have hwhole : w.path = (p.append first).child name := hw.trans (Path.append_append p first [name]).symm
  rcases hnode with hnone | hthere
  · have hreaches := reaches_child (ht.leads.append ht.sound hdir) ht.sound (ht.proper name (hfirst.subset (by simp)))
      fun target => by rw [hnone]; exact nofun
    rw [perform_ensureDirectory_missing hreaches hwhole hnone]
    exact ⟨ht.put hfirst hdir hnone, Files.get?_put_self (by simp)⟩
  · have hleads : t.LeadsTo w.path (d ++ (first ++ [name])) := by
      rw [hw]
      exact ht.leads.append ht.sound (by rw [← List.append_assoc, hthere])
    rw [perform_ensureDirectory_there hleads ht.sound]
    exact ⟨ht, hthere⟩

theorem makePart_succeeds (hk : k ≤ place.length) :
    Ensures (fun t => Passage t p d place) (makePart (p.append place) (p.parts.length + k))
      (fun _ t => Passage t p d place ∧ t.files.get? (d ++ place.take k) = some .directory) fun _ _ => False := by
  -- a directory is made after the one around it, so the induction is on the number of names
  induction k with
  | zero =>
    intro t ht
    have hpart : pathPart (p.append place) (p.parts.length + 0) = p := by
      rw [pathPart_append, List.take_zero, Path.append_nil]
    rw [perform_makePart_there ht.sound (hpart.symm ▸ ht.leads), List.take_zero, List.append_nil]
    exact ⟨ht, ht.leads.directory ht.sound⟩
  | succ k ih =>
    obtain ⟨name, htake⟩ : ∃ name, place.take (k + 1) = place.take k ++ [name] :=
      ⟨place[k], List.take_succ_eq_append_getElem hk⟩
    have hfirst : place.take k ++ [name] <+: place := htake ▸ List.take_prefix (k + 1) place
    have hpart := pathPart_append p place (k + 1)
    rw [htake] at hpart ⊢
    have hproper : ∀ t, Passage t p d place → ∀ c ∈ place.take k ++ [name], IsProper c := fun t ht c hc =>
      ht.proper c (hfirst.subset hc)
    intro t ht
    by_cases hd : t.files.get? (d ++ place.take k) = some .directory
    · have hnode := ht.cases hfirst
      rw [← List.append_assoc] at hnode ⊢
      rcases hnode with hnone | hthere
      · have hreaches := reaches_child (ht.leads.append ht.sound hd) ht.sound (hproper t ht name (by simp))
          fun target => by rw [hnone]; exact nofun
        have hwhole := hpart.trans (Path.append_append p (place.take k) [name]).symm
        have hmake : (makePart (p.append place) (p.parts.length + (k + 1))).perform t = _ :=
          perform_makePart_ok (perform_makeDirectory_missing hreaches hwhole hnone)
        rw [hmake]
        exact ⟨ht.put hfirst hd hnone, Files.get?_put_self (by simp)⟩
      · have hleads : t.LeadsTo (pathPart (p.append place) (p.parts.length + (k + 1))) (d ++ (place.take k ++ [name])) := by
          rw [hpart]
          exact ht.leads.append ht.sound (by rw [← List.append_assoc, hthere])
        rw [perform_makePart_there ht.sound hleads]
        exact ⟨ht, hthere⟩
    · -- the directory around it is missing, and made first
      have hpieces : ∀ c ∈ place.take k, IsProper c := fun c hc => hproper t ht c (List.mem_append_left _ hc)
      have hprefix : place.take k <+: place := (List.prefix_append _ _).trans hfirst
      rcases perform_makeDirectory_below (ht.way hprefix) hpieces (hproper t ht name (by simp))
        (w := (pathPart (p.append place) (p.parts.length + (k + 1))).written) hpart hd with hmissing | ⟨-, -, hblocked⟩
      · have hstep : (makePart (p.append place) (p.parts.length + (k + 1))).perform t = (do
            makePart (p.append place) (p.parts.length + k)
            ensureDirectory (pathPart (p.append place) (p.parts.length + (k + 1))).written : Action Unit).perform t :=
          perform_makePart_noEntry hmissing
        rw [hstep]
        exact ((ih (by omega)).bind fun _ => ensureDirectory_succeeds hfirst hpart) t ht
      · exact absurd (hblocked.mono hprefix) ht.free

end Passage

/-- The directory at the end of a passage can be made. -/
theorem makeDirectories_succeeds (h : Passage s p d place) :
    Succeeds (fun t => t = s) (makeDirectories (p.append place)) := by
  have hpart : Ensures (fun t => Passage t p d place) (makePart (p.append place) (p.parts.length + place.length))
      (fun _ t => Passage t p d place ∧ t.files.get? (d ++ place.take place.length) = some .directory)
      fun _ _ => False := Passage.makePart_succeeds (Nat.le_refl _)
  unfold makeDirectories
  rw [Path.parts_append, List.length_append]
  exact hpart.mono (fun _ ht => ht ▸ h) (fun _ _ _ => trivial) fun _ _ ht => ht

end Handout.Action
