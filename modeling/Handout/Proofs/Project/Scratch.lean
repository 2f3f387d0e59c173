import Handout.Proofs.Archive.Search
import Handout.Proofs.Files.Listable
import Handout.Proofs.Project.Unpack

/-!
# The temporary directory

When the temporary directory is made and filled, a path that avoids its place shows the same as before
(`Session.Avoids.sameView`).  An archive that reads the same in two sessions is unpacked alike in both: in the end the
temporary directory holds the same, and the same project is found in it (`unpack_relates`).
-/

namespace Handout

open Handout.Action Session

variable {s t a b : Session} {p archive : Path}

/-- A path from the working directory keeps away from the temporary directory. -/
theorem Session.Unlinked.avoids (h : s.Unlinked) (hrelative : p.isAbsolute = false) (hplain : ∀ c ∈ p.parts, IsPlain c) :
    Avoids s p s.scratch := by
  have hstart : s.start p = s.workingDir := by
    unfold Session.start
    rw [hrelative]
    rfl
  refine avoids_of_plain hplain (fun _ _ => h.ne_link _ _) (fun _ _ _ => h.ne_link _ _) (fun hout => ?_) fun hout => ?_ <;>
    rw [hstart] at hout
  · exact (List.prefix_or_prefix_of_prefix hout (List.prefix_append _ _)).elim h.outside h.apart
  · exact h.apart ((List.prefix_append _ _).trans hout)

/-- The session in which the temporary directory has been made. -/
def Session.opened (s : Session) : Session := { s with files := s.files.put s.scratch .directory }

theorem Session.Ready.opened (h : s.Ready) : Within s.opened s.opened s.scratch :=
  have hstart := Project.unpacked_start h
  .refl hstart.sound hstart.scratch hstart.noLink

/-- What avoids the place of the temporary directory still does so when it has been made and filled. -/
theorem Session.Avoids.within (h : Avoids s p s.scratch) (hs : s.Ready) (ht : Within s.opened t s.scratch) :
    Avoids t p s.scratch := by
  have hw : t.workingDir = s.workingDir := by
    rw [ht.only]
    rfl
  refine h.of_shape hw fun x hx => .inl ?_
  rw [ht.outside x hx]
  refine Files.get?_put_of_ne hs.scratch_ne_nil ?_
  rintro rfl
  exact hx (List.prefix_refl _)

/-- What avoids the place of the temporary directory shows the same when it has been made and filled. -/
theorem Session.Avoids.sameView (h : Avoids s p s.scratch) (hs : s.Ready) (ht : Within s.opened t s.scratch) :
    SameView s t p := by
  have hopened : SameView s s.opened p := by
    refine ⟨fun names hp follow => ?_, fun names hp loc hl => ?_, rfl⟩
    · refine (h.find s.files s.opened.files (.refl _ _) (fun x hx => ?_) names hp follow).symm
      refine Files.get?_put_of_ne hs.scratch_ne_nil ?_
      rintro rfl
      exact hx (List.prefix_refl _)
    · refine (Files.names_put_of_ne ?_).symm
      -- a path to the parent of the temporary directory would lead into it
      obtain ⟨dir, name, hscratch, -, hproper⟩ := hs.room
      rw [hscratch, List.dropLast_concat]
      rintro rfl
      have hfresh : s.files.get? (dir ++ [name]) = none := hscratch ▸ hs.fresh
      have hfind := find_child true hl hproper.plain hproper.short (by rw [hfresh]; exact nofun)
      rw [Path.child_eq_append, Path.append_append] at hfind
      have hplain : ∀ c ∈ names ++ [name], IsPlain c := by
        intro c hc
        rcases List.mem_append.1 hc with hc | hc
        · exact hp c hc
        · rw [List.mem_singleton.1 hc]
          exact hproper.plain
      exact h.apart s.files (.refl _ _) _ hplain true _ hfind (hscratch ▸ List.prefix_refl _)
  exact hopened.trans (ht.sameView (h.within hs hs.opened))

/-- A temporary directory in which nothing is locked can be listed. -/
theorem listable_scratch (ht : Within s.opened t s.scratch) (hlocked : ∀ rel, Location.path (s.scratch ++ rel) ∉ s.locked) :
    t.Listable s.scratch :=
  ⟨ht.sound, ht.directory, ht.noLink, by rw [ht.locked]; exact hlocked⟩

namespace Project

/-! ### Unpacking in two sessions -/

/-- In two sessions the temporary directory is in the same place and holds the same. -/
structure SameScratch (s t a b : Session) : Prop where
  left : Within s.opened a s.scratch
  right : Within t.opened b s.scratch
  same : ∀ rel, a.files.get? (s.scratch ++ rel) = b.files.get? (s.scratch ++ rel)
  names : ∀ rel, a.files.names (s.scratch ++ rel) = b.files.names (s.scratch ++ rel)

namespace SameScratch

theorem log (h : SameScratch s t a b) (record : LogRecord) :
    SameScratch s t { a with log := a.log ++ [record] } { b with log := b.log ++ [record] } :=
  ⟨h.left.log record, h.right.log record, h.same, h.names⟩

/-- The temporary directory has been made. -/
theorem start (hs : s.Ready) (ht : t.Ready) (hscratch : t.scratch = s.scratch) : SameScratch s t s.opened t.opened := by
  have hright := ht.opened
  rw [hscratch] at hright
  have hnone : ∀ {u : Session}, u.Ready → ∀ rel, rel ≠ [] → u.opened.files.get? (u.scratch ++ rel) = none := by
    intro u hu rel hne
    unfold Session.opened
    dsimp only
    rw [Files.get?_put_of_ne hu.scratch_ne_nil (by simpa using hne)]
    exact hu.get?_scratch (List.prefix_append _ _)
  have hnames : ∀ {u : Session}, u.Ready → ∀ rel, u.opened.files.names (u.scratch ++ rel) = [] := by
    intro u hu rel
    refine List.eq_nil_iff_forall_not_mem.2 fun name hmem => Files.mem_names.1 hmem ?_
    rw [List.append_assoc]
    exact hnone hu _ (by simp)
  refine ⟨hs.opened, hright, fun rel => ?_, fun rel => ?_⟩
  · by_cases hne : rel = []
    · rw [hne, List.append_nil, hs.opened.directory, hright.directory]
    · rw [hnone hs rel hne, ← hscratch, hnone ht rel hne]
  · rw [hnames hs, ← hscratch, hnames ht]

/-- Storing a node in both temporary directories. -/
private theorem put {rel : List String} {c : String} {node : Node} (h : SameScratch s t a b) (hc : IsProper c)
    (hd : a.files.get? (s.scratch ++ rel) = some .directory)
    (hold : a.files.get? (s.scratch ++ rel ++ [c]) = some .directory → node = .directory) (hnode : node.isLink = false) :
    SameScratch s t { a with files := a.files.put (s.scratch ++ rel ++ [c]) node }
      { b with files := b.files.put (s.scratch ++ rel ++ [c]) node } := by
  have hplace : a.files.get? (s.scratch ++ rel ++ [c]) = b.files.get? (s.scratch ++ rel ++ [c]) := by
    rw [List.append_assoc]
    exact h.same _
  refine ⟨h.left.put (List.prefix_append _ _) hd hc hold hnode,
    h.right.put (List.prefix_append _ _) ((h.same rel).symm.trans hd) hc (fun hx => hold (hplace.trans hx)) hnode,
    fun more => ?_, fun more => ?_⟩
  · dsimp only
    rw [Files.get?_put (by simp), Files.get?_put (by simp), h.same]
  · dsimp only
    by_cases hdir : s.scratch ++ rel = s.scratch ++ more
    · rw [← hdir, Files.names_put, Files.names_put, hplace, hdir, h.names]
    · have hne : (s.scratch ++ rel ++ [c]).dropLast ≠ s.scratch ++ more := by
        rwa [List.dropLast_concat]
      rw [Files.names_put_of_ne hne, Files.names_put_of_ne hne, h.names]

/-- The temporary directory shows the same in both sessions. -/
private theorem sameView (h : SameScratch s t a b) (hlocked : t.locked = s.locked)
    (hunlocked : ∀ rel, Location.path (s.scratch ++ rel) ∉ s.locked) : SameView a b s.scratch.path := by
  refine (listable_scratch h.left hunlocked).sameView (fun x hx => ?_) (funext h.same) h.names ?_
  · rw [h.left.sound.files.way h.left.directory hx, h.right.sound.files.way h.right.directory hx]
  · rw [h.left.locked, h.right.locked]
    exact hlocked.symm

end SameScratch

private theorem unpacks_sameScratch (s t : Session) :
    Archive.Unpacks (SameScratch s t) s.scratch.path s.scratch fun _ => True where
  left _ _ h _ := ⟨h.left.sound, leadsTo_path h.left.sound h.left.directory, fun first target _ _ =>
    h.left.noLink first target⟩
  right _ _ h _ := ⟨h.right.sound, leadsTo_path h.right.sound h.right.directory, fun first target _ _ =>
    h.right.noLink first target⟩
  same _ _ h rel _ := h.same rel
  make _ _ _ _ h _ hc hd _ := h.put hc hd (fun _ => rfl) rfl
  write _ _ _ _ _ _ h _ hc hd hflag := h.put hc hd (fun hx => absurd hx hflag.ne_directory) rfl
  log _ _ record h := h.log record

/-- An archive that reads the same is unpacked alike. -/
theorem unpack_relates (hs : s.Ready) (ht : t.Ready) (hscratch : t.scratch = s.scratch) (hlocked : t.locked = s.locked)
    (hunlocked : ∀ rel, Location.path (s.scratch ++ rel) ∉ s.locked) (hleft : Avoids s archive s.scratch)
    (hright : Avoids t archive s.scratch) (hread : s.content? archive.written = t.content? archive.written) :
    Relates (fun a b => a = s ∧ b = t) (unpack archive) (unpack archive)
      (fun root a b => SameScratch s t a b ∧ IsDirectoryIn a.files s.scratch root) (Same fun _ _ _ => True) := by
  have hcontent : ∀ a b, SameScratch s t a b → a.content? archive.written = b.content? archive.written := by
    intro a b h
    have hviewed := hright
    rw [← hscratch] at hviewed
    have hwithin := h.right
    rw [← hscratch] at hwithin
    rw [← (hleft.sameView hs h.left).content?, ← (hviewed.sameView ht hwithin).content?, hread]
  have hnamed : ∀ c ∈ ([] : List String), IsName c := fun c hc => absurd hc List.not_mem_nil
  have hextract := Archive.extract_relates archive (unpacks_sameScratch s t) (fun _ _ _ _ => trivial) hnamed hcontent
  rw [Path.append_nil, List.append_nil] at hextract
  have hopened : t.opened = { t with files := t.files.put s.scratch .directory } := by
    rw [← hscratch]
    rfl
  unfold unpack
  refine Relates.get_bind fun a b hab => ?_
  obtain ⟨rfl, rfl⟩ : s = a ∧ t = b := ⟨hab.1.symm, hab.2.symm⟩
  rw [hscratch]
  refine Relates.bind (M := fun _ => SameScratch s t) (Relates.edit ?_) fun _ => ?_
  · rintro _ _ ⟨rfl, rfl⟩
    have hstart := SameScratch.start hs ht hscratch
    rwa [hopened] at hstart
  refine (hextract.mono (fun _ _ h => h) (fun _ _ _ h => h) fun _ _ _ _ h => ⟨h.1, trivial⟩).bind fun _ => ?_
  intro a b hab
  have hfind := Archive.findProject_relates (f := a.files)
    (R := fun c d => SameScratch s t c d ∧ ∀ rel, c.files.get? (s.scratch ++ rel) = a.files.get? (s.scratch ++ rel))
    archive hab.1.left.sound.files hab.2 (fun c d h => ⟨h.1.left.sound, h.2, hab.1.left.noLink⟩)
    (fun c d h => ⟨h.1.right.sound, fun rel => by rw [← h.2, h.1.same], hab.1.left.noLink⟩)
    (fun c d h => h.1.sameView hlocked hunlocked) fun c d record h => ⟨h.1.log record, h.2⟩
  refine (hfind a b ⟨hab.1, fun _ => rfl⟩).mono (fun root c d h => ⟨h.1.1, ?_⟩) fun _ _ _ _ h => ⟨h.1, trivial⟩
  obtain ⟨rel, hroot, hd⟩ := h.2
  exact ⟨rel, hroot, by rw [h.1.2, hd]⟩

end Project

end Handout
