import Handout.Proofs.Archive.Extract
import Handout.Proofs.Files.Parents

/-!
# An extraction is confined to its target

Whatever an archive holds, and whether its extraction succeeds or fails on the way, the files change in two ways only:
directories are made that are missing on the way to the target, and below the target something is made or written
under names none of which is noise.  No link appears below the target (`Confined`, `extract_confined`).

In the first phase the target may lead nowhere yet, so nothing is known of where it will lead but the place for which it
stands; in the second one it leads to a directory, and the members of the archive change what is below it (`Filled`).
-/

namespace Handout.Archive

open Handout.Action Session

variable {s t : Session} {target archive : Path} {d : Location} {rel : List String}

/-- Names below a target under which something may be extracted. -/
def IsClean (rel : List String) : Prop := ∀ c ∈ rel, IsProper c ∧ c ∉ noiseNames

/-- No link is stored at or below the place for which a path stands. -/
def HasNoLinks (s : Session) (p : Path) : Prop :=
  ∀ d, s.resolve? p = .ok (Location.path d) → ∀ rel text, s.files.get? (d ++ rel) ≠ some (.link text)

/-- What an extraction may have done to the files: what has changed is a parent of the target or below the target, and
below the target the names are clean, apart from parents that lie there because the target is written with `..`. -/
structure Confined (s : Session) (target : Path) (t : Session) : Prop where
  changed : ∀ x, t.files.get? x = s.files.get? x ∨ IsNewParent s t target x ∨
    ∃ d rel, s.resolve? target = .ok (Location.path d) ∧ rel ≠ [] ∧ x = d ++ rel
  clean : ∀ d rel, s.resolve? target = .ok (Location.path d) → rel ≠ [] →
    t.files.get? (d ++ rel) ≠ s.files.get? (d ++ rel) →
    IsClean rel ∨ ".." ∈ target.parts ∧ IsNewParent s t target (d ++ rel)
  noLink : ∀ d, s.resolve? target = .ok (Location.path d) → ∀ rel text, t.files.get? (d ++ rel) ≠ some (.link text)

/-- A new parent that lies below the target is there because of a `..`. -/
theorem up_of_below {x : Location} (h : IsNewParent s t target x) (hd : s.resolve? target = .ok (Location.path d))
    (hne : rel ≠ []) (hx : x = d ++ rel) : ".." ∈ target.parts := by
  by_contra hup
  have hlength := (h.above hup d hd).length_le
  rw [hx, List.length_append] at hlength
  exact hne (List.eq_nil_of_length_eq_zero (by omega))

theorem confined_of_paved (hlinks : HasNoLinks s target) (h : Paved s target t) : Confined s target t where
  changed x := (h.changed x).imp_right .inl
  clean d rel hd hne hx := by
    rcases h.changed (d ++ rel) with he | hnew
    · exact absurd he hx
    · exact .inr ⟨up_of_below hnew hd hne rfl, hnew⟩
  noLink d hd rel text hlink := hlinks d hd rel text ((h.link_iff _ _).2 hlink)

/-- The target leads to a directory, and what has changed is on the way to it or cleanly below it. -/
structure Filled (s : Session) (target : Path) (d : Location) (t : Session) : Prop where
  sound : t.Sound
  leads : t.LeadsTo target d
  noLink : ∀ rel text, t.files.get? (d ++ rel) ≠ some (.link text)
  changed : ∀ x, t.files.get? x = s.files.get? x ∨ IsNewParent s t target x ∨ ∃ rel, rel ≠ [] ∧ x = d ++ rel ∧ IsClean rel

theorem Paved.filled (hlinks : HasNoLinks s target) (h : Paved s target t) (hz : target.hasZero = false)
    (hleads : t.LeadsTo target d) : Filled s target d t where
  sound := h.sound
  leads := hleads
  noLink := (confined_of_paved hlinks h).noLink d (h.resolve?_eq hz hleads)
  changed x := (h.changed x).imp_right .inl

theorem Filled.confined (h : Filled s target d t) (hd : s.resolve? target = .ok (Location.path d)) :
    Confined s target t where
  changed x := by
    rcases h.changed x with he | hnew | ⟨rel, hne, rfl, -⟩
    · exact .inl he
    · exact .inr (.inl hnew)
    · exact .inr (.inr ⟨d, rel, hd, hne, rfl⟩)
  clean d' rel hd' hne hx := by
    cases hd.symm.trans hd'
    rcases h.changed (d ++ rel) with he | hnew | ⟨rel', -, he, hclean⟩
    · exact absurd he hx
    · exact .inr ⟨up_of_below hnew hd hne rfl, hnew⟩
    · rw [List.append_cancel_left he]
      exact .inl hclean
  noLink d' hd' := by
    cases hd.symm.trans hd'
    exact h.noLink

/-- Something other than a link is stored in a directory below the target, where no directory was. -/
theorem Filled.put (h : Filled s target d t) {c : String} {node : Node} (hnoise : ∀ x ∈ rel ++ [c], x ∉ noiseNames)
    (hc : IsProper c) (hdir : t.files.get? (d ++ rel) = some .directory)
    (hold : t.files.get? (d ++ rel ++ [c]) ≠ some .directory) (hnode : ∀ text, node ≠ .link text) :
    Filled s target d { t with files := t.files.put (d ++ rel ++ [c]) node } := by
  have hne : d ++ rel ++ [c] ≠ [] := by simp
  have hkeep : ∀ x old, t.files.get? x = some old → old = .directory ∨ (∃ text, old = .link text) →
      (t.files.put (d ++ rel ++ [c]) node).get? x = some old := by
    intro x old hx hkind
    rw [Files.get?_put_of_ne hne, hx]
    rintro rfl
    rcases hkind with rfl | ⟨text, rfl⟩
    · exact hold hx
    · rw [List.append_assoc] at hx
      exact h.noLink _ _ hx
  have hkeepDir : ∀ x, t.files.get? x = some .directory → (t.files.put (d ++ rel ++ [c]) node).get? x = some .directory :=
    fun x hx => hkeep x _ hx (.inl rfl)
  have hkeepLink : ∀ x text, t.files.get? x = some (.link text) →
      (t.files.put (d ++ rel ++ [c]) node).get? x = some (.link text) := fun x text hx => hkeep x _ hx (.inr ⟨text, rfl⟩)
  refine ⟨h.sound.put hdir hc fun hx => absurd hx hold, h.leads.mono rfl hkeepDir hkeepLink, ?_, ?_⟩
  · intro rel' text
    dsimp only
    rw [Files.get?_put hne]
    split
    · exact fun he => hnode text (Option.some.inj he)
    · exact h.noLink rel' text
  · intro x
    by_cases hx : x = d ++ rel ++ [c]
    · refine .inr (.inr ⟨rel ++ [c], by simp, by rw [hx, List.append_assoc], fun y hy => ⟨?_, hnoise y hy⟩⟩)
      rcases List.mem_append.1 hy with hy | hy
      · exact h.sound.files.proper_of_mem (by rw [hdir]; exact Option.some_ne_none _) hy
      · rwa [List.mem_singleton.1 hy]
    · rcases h.changed x with he | hnew | hclean
      · exact .inl ((Files.get?_put_of_ne hne hx).trans he)
      · exact .inr (.inl { hnew with made := hkeepDir x hnew.made })
      · exact .inr (.inr hclean)

/-- What members may do below the target. -/
theorem unpacks_filled :
    Unpacks (Alone (Filled s target d)) target d fun rel => ∀ c ∈ rel, c ∉ noiseNames := by
  refine Unpacks.alone (fun t ht => ⟨ht.sound, ht.leads, ht.noLink⟩) ?_ ?_ ?_
  · intro t rel c ht hok hc hdir hnone
    exact ht.put hok hc hdir (by rw [hnone]; exact nofun) fun _ => nofun
  · intro t rel c data flag ht hok hc hdir hflag
    exact ht.put hok hc hdir hflag.ne_directory fun _ => nofun
  · intro t record ht
    refine ⟨⟨ht.sound.files, ht.sound.workingDir⟩, ht.leads, ht.noLink, fun x => ?_⟩
    exact (ht.changed x).imp_right (Or.imp_left fun hnew => { hnew with })

/-- The members of any listing stay below a target that leads to a directory, whatever becomes of them. -/
theorem extractListing_filled (archive : Path) (l : Listing) :
    Ensures (Filled s target d) (extractListing archive target l) (fun _ => Filled s target d)
      fun _ => Filled s target d := by
  have hok : Receives (fun rel => ∀ c ∈ rel, c ∉ noiseNames) [] := fun rest hrest first _ hfirst c hc =>
    hrest c (by simpa using hfirst.subset hc)
  have hunpacks : Unpacks (Alone (Filled s target d)) target d fun rel => ∀ c ∈ rel, c ∉ noiseNames := unpacks_filled
  have h : Relates (Alone (Filled s target d)) (extractListing archive (target.append []) l)
      (extractListing archive (target.append []) l) (fun _ => Alone (Filled s target d))
      (Same fun _ => Alone (Filled s target d)) :=
    extractListing_relates hunpacks hok (fun c hc => absurd hc List.not_mem_nil) l
  rw [Path.append_nil] at h
  exact ensures_iff_relates.2 (h.mono (fun _ _ hst => hst) (fun _ _ _ hst => hst) fun _ _ _ _ hst => hst)

/-- An extraction from any archive into any target is confined to the target, also when it fails. -/
theorem extract_confined (hs : s.Sound) (archive : Path) (text : String) (hlinks : HasNoLinks s (Path.ofString text)) :
    Confined s (.ofString text) ((extract archive (.ofString text)).perform s).2 := by
  generalize htarget : Path.ofString text = target at hlinks ⊢
  have hread : target.IsRead := by
    subst htarget
    exact fun c => Path.isName_of_mem_ofString
  have hmake : Ensures (Paved s target) (makeDirectory target)
      (fun _ t => Paved s target t ∧ target.hasZero = false ∧ ∃ d, t.LeadsTo target d) fun _ => Paved s target :=
    (makeDirectories_paves hread).during _ _
  suffices h : Ensures (Paved s target) (extract archive target) (fun _ => Confined s target)
      fun _ => Confined s target by
    have hend := h s (.refl hs)
    rcases hrun : (extract archive target).perform s with ⟨r, u⟩
    rw [hrun] at hend
    cases r <;> exact hend
  unfold extract
  refine (hmake.mono (fun _ ht => ht) (fun _ _ ht => ht) fun _ _ ht => confined_of_paved hlinks ht).bind fun _ => ?_
  rintro t ⟨ht, hz, d, hleads⟩
  have hd := ht.resolve?_eq hz hleads
  -- from here on the members decide
  refine Ensures.mono (P := Filled s target d) (Q := fun _ => Filled s target d) (E := fun _ => Filled s target d) ?_
    (fun _ h => h) (fun _ _ h => h.confined hd) (fun _ _ h => h.confined hd) t (Paved.filled hlinks ht hz hleads)
  refine (Ensures.during (Ensures.query fun u hu => ?_) _ _).bind (M := fun _ => Filled s target d) fun data => ?_
  · cases u.content? archive.written <;> exact hu
  refine (Ensures.query_const (read? data)).bind fun found => ?_
  refine Ensures.of_and fun _ => ?_
  cases found with
  | none => exact Ensures.throw fun _ h => h
  | some found => exact extractListing_filled archive found.2

/-- An archive with one empty file `f`. -/
def sampleArchive : Bytes :=
  [80, 75, 3, 4, 20, 0, 0, 0, 0, 0, 0, 0, 33, 0, 0, 0, 0, 0, 0, 0, 0, 0, 0, 0, 0, 0, 1, 0, 0, 0, 102, 80, 75, 1, 2,
   20, 0, 20, 0, 0, 0, 0, 0, 0, 0, 33, 0, 0, 0, 0, 0, 0, 0, 0, 0, 0, 0, 0, 0, 1, 0, 0, 0, 0, 0, 0, 0, 0, 0, 0, 0,
   128, 1, 0, 0, 0, 0, 102, 80, 75, 5, 6, 0, 0, 0, 0, 1, 0, 1, 0, 47, 0, 0, 0, 31, 0, 0, 0, 0, 0]

/-- A session in a directory `w`, which holds the archive `x.zip` and an empty directory `a`. -/
def sampleExtraction : Session where
  files := ⟨[(["w"], .directory), (["w", "x.zip"], .file sampleArchive false), (["w", "a"], .directory)]⟩
  workingDir := ["w"]
  scratch := ["t"]

/-- The archive is extracted into `a`. -/
theorem sampleExtraction_confined :
    let o := (extract (.ofString "x.zip") (.ofString "a")).perform sampleExtraction
    HasNoLinks sampleExtraction (.ofString "a") ∧ Confined sampleExtraction (.ofString "a") o.2 ∧
      o.2.files.get? ["w", "a", "f"] = some (.file [] false) := by
  have hs : sampleExtraction.Sound := ⟨Files.wellFormed_of_entries (by decide +kernel), by decide +kernel⟩
  have hlinks : HasNoLinks sampleExtraction (.ofString "a") := fun _ _ _ text =>
    Files.get?_ne_link (by decide +kernel) _ text
  exact ⟨hlinks, extract_confined hs (.ofString "x.zip") "a" hlinks, by decide +kernel⟩

/-- With `..` in the target a missing parent of it may lie below it, and then its name may be noise. -/
theorem sampleExtraction_noise :
    let target := Path.ofString "a/.DS_Store/.."
    let o := (extract (.ofString "x.zip") target).perform sampleExtraction
    sampleExtraction.Sound ∧ HasNoLinks sampleExtraction target ∧
      sampleExtraction.resolve? target = .ok (Location.path ["w", "a"]) ∧
      sampleExtraction.files.get? ["w", "a", ".DS_Store"] = none ∧
      o.2.files.get? ["w", "a", ".DS_Store"] = some .directory ∧ ".DS_Store" ∈ noiseNames :=
  ⟨⟨Files.wellFormed_of_entries (by decide +kernel), by decide +kernel⟩,
    fun _ _ _ text => Files.get?_ne_link (by decide +kernel) _ text, by rfl, by decide +kernel, by decide +kernel,
    by decide +kernel⟩

end Handout.Archive
