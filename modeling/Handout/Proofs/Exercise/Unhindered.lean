import Handout.Proofs.Exercise.Mirror
import Handout.Proofs.Files.Passage

/-!
# Deriving where nothing is in the way

A file can be mirrored if it can be read and has no broken tag, and if nothing is in the way of its image: there are at
most directories around the place, and at most a file in it (`Session.Unhindered`).  The file itself is not stored where
images go, as then its content would change with them (`Session.Undisturbed.not_prefix`).  So deriving succeeds if this
holds in the turn of every file of which something is written (`perform_process_unhindered`).
-/

namespace Handout

namespace Session

variable {s t u : Session} {p : Path} {d top x : Location} {names init : List String} {c : String} {data : Bytes}
  {flag : Bool}

/-- A file that a path shows is not stored where changes do not disturb what the path shows. -/
theorem Undisturbed.not_prefix (h : Undisturbed s p top) (hs : s.Sound)
    (hlink : ∀ rel target, s.files.get? (top ++ rel) ≠ some (.link target)) (hp : ∀ c ∈ names, IsPlain c)
    (hfind : s.find true (p.append names) = .ok ⟨x, some (.file data flag)⟩) : ¬ top <+: x := by
  intro hx
  have hold : s.files.get? x = some (.file data flag) := (find_isSound hs hfind).1.symm
  have hexists : s.files.get? x ≠ none := by
    rw [hold]
    exact Option.some_ne_none _
  obtain ⟨dir, c, rfl⟩ : ∃ dir c, x = dir ++ [c] := by
    refine (List.eq_nil_or_concat' x).resolve_left ?_
    rintro rfl
    cases hold
  -- a longer content in its place would be seen
  let t : Session := { s with files := s.files.put (dir ++ [c]) (.file (0 :: data) flag) }
  have hnew : t.files.get? (dir ++ [c]) = some (.file (0 :: data) flag) := Files.get?_put_self (by simp)
  have hsound : t.Sound := by
    refine hs.put (hs.files.ancestor hexists (List.cons_ne_nil _ _)) (hs.files.proper hexists) fun hdir => ?_
    rw [hold] at hdir
    cases hdir
  have ht : Grown s t top := by
    refine Grown.of_cases rfl hsound hlink fun y => ?_
    by_cases hy : y = dir ++ [c]
    · subst hy
      exact .inr ⟨hx, .inr ⟨data, flag, hold⟩, fun target => by rw [hnew]; exact nofun⟩
    · exact .inl (Files.get?_put_of_ne (by simp) hy)
  have hfind' := (h t ht).find names hp true (.inr rfl)
  rw [hfind] at hfind'
  have hsame := (find_isSound hsound hfind').1.trans hnew
  simp at hsame

/-- Nothing is in the way of a file that is to be stored behind some names: there are at most directories around it, and
at most a file in its place. -/
structure Unhindered (s : Session) (d : Location) (around : List String) (name : String) : Prop where
  proper : ∀ c ∈ around, IsProper c
  free : ¬ Blocked (s.files.content d) around
  spot : ∃ flag, Action.Flagged (s.files.get? (d ++ around ++ [name])) flag

/-- If files can be written, nothing is in the way of them when only some of them have been written. -/
theorem Overlaid.unhindered {W W' : List String → Bytes → Prop} (h : Overlaid s t (d ++ names) W)
    (h' : Overlaid s u (d ++ names) W') (hsome : ∀ rel data, W' rel data → ∃ data', W rel data')
    (hrel : ∀ rel data, W rel data → rel ≠ []) (hw : W (init ++ [c]) data) : Unhindered u d (names ++ init) c := by
  obtain ⟨flag, -, hstored⟩ := h.written _ _ hw
  have hexists : t.files.get? (d ++ ((names ++ init) ++ [c])) ≠ none := by
    rw [List.append_assoc, ← List.append_assoc, hstored]
    exact Option.some_ne_none _
  refine ⟨fun x hx => h.sound.files.proper_of_mem hexists (List.mem_append_left _ hx), ?_, ?_⟩
  · rintro ⟨first, ⟨more, hmore⟩, hn, hd⟩
    rw [← hmore, List.append_assoc, ← List.append_assoc] at hexists
    have hdir := h.sound.files.ancestor hexists (by simp)
    exact (h.directory_of_some h' hsome hdir).elim hn hd
  · rw [← List.append_assoc d, List.append_assoc (d ++ names)]
    exact h.flagged_of_some h' hsome hrel hw

end Session

namespace Exercise

open Handout.Action Session

variable {keep : SpanFilter} {before s t u : Session} {source target known f g : Path} {d : Location}
  {names init : List String} {c : String} {done : List Path} {data : Bytes}

/-! ### A file in its turn -/

section Turns

variable (h : Turn keep before source target known d names done f g init c s) (ho : Unhindered s d (names ++ init) c)

include h ho

private theorem Turn.makeParent_succeeds : Succeeds (fun t => t = s) (makeParent g) := by
  have hpassage : Passage s known d (names ++ init) :=
    ⟨h.mirrored.sound, h.grown.leadsTo h.destination.leads, ho.proper, ho.free⟩
  unfold makeParent
  rw [h.parent_eq]
  exact (makeDirectories_succeeds hpassage).during _ _

/-- The place of the file when its directory has been made. -/
private theorem Turn.spot (hopened : Opened s u (d ++ names ++ init))
    (hdir : u.files.get? (d ++ names ++ init) = some .directory) :
    u.Reaches g (d ++ names ++ init ++ [c]) ∧ ∃ flag, Flagged (u.files.get? (d ++ names ++ init ++ [c])) flag := by
  have hsame : u.files.get? (d ++ names ++ init ++ [c]) = s.files.get? (d ++ names ++ init ++ [c]) :=
    hopened.eq_of_not_prefix (not_concat_prefix_self _ c)
  have hgrown := h.grown.opened h.destination h.sound (List.prefix_append _ init) hopened
  have hleads : u.LeadsTo (known.append (names ++ init)) (d ++ names ++ init) := by
    rw [List.append_assoc] at hdir ⊢
    exact (hgrown.leadsTo h.destination.leads).append hopened.sound hdir
  have hspot := ho.spot
  rw [← List.append_assoc, ← hsame] at hspot
  have himage : g = (known.append (names ++ init)).child c := by
    rw [h.image_eq, Path.child_eq_append, Path.append_append, List.append_assoc]
  refine ⟨?_, hspot⟩
  rw [himage]
  refine reaches_child hleads hopened.sound (h.proper c (by simp)) fun target hlink => ?_
  obtain ⟨flag, hflag⟩ := hspot
  rcases hflag with ⟨hnone, -⟩ | ⟨old, hfile⟩
  · cases hnone.symm.trans hlink
  · cases hfile.symm.trans hlink

private theorem Turn.write_succeeds (data : Bytes) :
    Succeeds (fun t => Opened s t (d ++ names ++ init) ∧ t.files.get? (d ++ names ++ init) = some .directory)
      (Action.during .write g (Action.writeFile g.written data)) := by
  refine Succeeds.during ?_ _ _
  rintro t ⟨hopened, hdir⟩
  obtain ⟨hreaches, flag, hflag⟩ := h.spot ho hopened hdir
  rw [perform_writeFile data hreaches rfl hflag]
  trivial

private theorem Turn.copy_succeeds (hdata : before.content? f.written = .ok data) :
    Succeeds (fun t => Opened s t (d ++ names ++ init) ∧ t.files.get? (d ++ names ++ init) = some .directory)
      (Action.during .copy f (copyContent (.path f) f.written (.path g) g.written)) := by
  refine Succeeds.during ?_ _ _
  rintro t ⟨hopened, hdir⟩
  obtain ⟨hreaches, flag, hflag⟩ := h.spot ho hopened hdir
  have hgrown := h.grown.opened h.destination h.sound (List.prefix_append _ init) hopened
  have hplain : ∀ x ∈ init ++ [c], IsPlain x := fun x hx => (h.proper x hx).plain
  obtain ⟨-, loc, executable, hfind⟩ := content?_eq_ok hdata
  have hfound : before.find true (source.append (init ++ [c])) = .ok ⟨loc, some (.file data executable)⟩ := by
    rw [← h.file]
    exact hfind
  have hnow : t.find true f = .ok ⟨loc, some (.file data executable)⟩ := by
    rw [h.file, (h.undisturbed t hgrown).find _ hplain true (.inr rfl), hfound]
  -- a file that is stored in the place of its own image could not be undisturbed
  have hapart : loc ≠ d ++ names ++ init ++ [c] := by
    rintro rfl
    refine h.undisturbed.not_prefix h.sound h.destination.noLink hplain hfound ?_
    rw [List.append_assoc, List.append_assoc]
    exact (List.prefix_append_right_inj d).2 ((List.take_prefix 1 names).trans (List.prefix_append _ _))
  rw [perform_copyContent (.path f) (.path g) hnow h.hasZero_file hreaches hapart, perform_writeFile data hreaches rfl hflag]
  trivial

end Turns

/-- An operation that succeeds in the turn of a file that can be read and has no broken tag, if nothing is in the way of
what is written. -/
structure SucceedsInTurns (keep : SpanFilter) (before : Session) (source target known : Path) (d : Location)
    (names : List String) (visit : Path → Path → Action Unit) : Prop where
  succeeds : ∀ done f g init c s out, Turn keep before source target known d names done f g init c s →
    Yields keep before f out → (out ≠ none → Unhindered s d (names ++ init) c) → Succeeds (fun t => t = s) (visit f g)

theorem mirrorFile_succeedsInTurns : SucceedsInTurns keep before source target known d names (mirrorFile keep) := by
  refine ⟨?_⟩
  intro done f g init c s out h hy ho
  obtain ⟨data, hdata, hfault, hout⟩ := hy
  -- no directory is made for a file that is left out, so only a written file needs its place
  have hparent : out ≠ none → Ensures (fun t => t = s) (makeParent g)
      (fun _ t => Opened s t (d ++ names ++ init) ∧ t.files.get? (d ++ names ++ init) = some .directory)
      fun _ _ => False := fun hwritten =>
    (h.makeParent_ensures.and (h.makeParent_succeeds (ho hwritten))).mono (fun _ ht => ht) (fun _ _ ht => ht.1)
      fun _ _ ht => ht.2
  unfold mirrorFile
  split
  · rename_i hbinary
    have hwritten : out ≠ none := by
      rw [hout, output?_of_isBinary hbinary]
      exact Option.some_ne_none _
    exact (hparent hwritten).bind fun _ => h.copy_succeeds (ho hwritten) hdata
  · rename_i hbinary
    have htext : isBinary f = false := Bool.not_eq_true _ ▸ hbinary
    have hparse : Ensures (fun t => t = s) (parseFile f)
        (fun spans t => t = s ∧ spans = (parseTags f.extension data).spans) fun _ _ => False := by
      have hread : s.content? f.written = .ok data := by rw [h.content? h.grown, hdata]
      rintro t rfl
      unfold parseFile readFile
      rw [perform_bind, perform_during, perform_query, hread]
      simp only [hfault htext]
      exact ⟨rfl, rfl⟩
    refine hparse.bind fun spans => Ensures.of_and fun hspans => ?_
    split
    · exact Ensures.pure fun _ _ => trivial
    · rename_i hkept
      rw [hspans] at hkept
      have hwritten : out ≠ none := by
        rw [hout, output?_of_kept htext (Bool.not_eq_true _ ▸ hkept)]
        exact Option.some_ne_none _
      exact (hparent hwritten).bind fun _ => h.write_succeeds (ho hwritten) _

/-- In the turn of each file of which something is written, nothing is in the way. -/
def StaysClear (keep : SpanFilter) (before : Session) (source target known : Path) (d : Location) (names : List String) :
    Prop :=
  ∀ done f g init c s data, Turn keep before source target known d names done f g init c s →
    Yields keep before f (some data) → Unhindered s d (names ++ init) c

/-- What does files in their turns and succeeds can only fail for a file that cannot be read or has a broken tag. -/
theorem SucceedsInTurns.doesTurns {E : List Path → Path → Failure → Session → Prop} {visit : Path → Path → Action Unit}
    (h : SucceedsInTurns keep before source target known d names visit)
    (hclear : StaysClear keep before source target known d names)
    (hdoes : DoesTurns keep before source target known d names E visit) :
    DoesTurns keep before source target known d names (fun _ f _ _ => ∀ out, ¬ Yields keep before f out) visit := by
  refine ⟨?_⟩
  intro done f g init c s hturn
  have hmirror := hdoes.ensures done f g init c s hturn
  by_cases hy : ∃ out, Yields keep before f out
  · obtain ⟨out, hy⟩ := hy
    have hunhindered : out ≠ none → Unhindered s d (names ++ init) c := by
      cases out with
      | none => exact fun hwritten => absurd rfl hwritten
      | some data => exact fun _ => hclear done f g init c s data hturn hy
    have hsucceeds := h.succeeds done f g init c s out hturn hy hunhindered
    exact (hmirror.and hsucceeds).mono (fun _ ht => ht) (fun _ _ ht => ht.1) fun _ _ ht => ht.2.elim
  · exact hmirror.mono (fun _ ht => ht) (fun _ _ ht => ht) fun _ _ _ out hout => hy ⟨out, hout⟩

/-! ### The whole exercise -/

/-- Deriving succeeds if every file can be read and has no broken tag, and nothing is in the way of what is written. -/
theorem perform_process_unhindered (hs : s.Sound) (hq : Destination s target known d names)
    (hp : Undisturbed s source (d ++ names.take 1)) (hz : source.hasZero = false)
    (hyields : ∀ f ∈ visited s (s.files.height + 1) source, ∃ out, Yields keep s f out)
    (hclear : StaysClear keep s source target known d names) :
    ∃ t, (process keep source target).perform s = (.ok (), t) ∧
      Mirrored keep s t source (d ++ names) (visited s (s.files.height + 1) source) := by
  obtain ⟨log, hrun⟩ := perform_process keep source target s
  have hlevels : visited s (nesting s.files target) source = visited s (s.files.height + 1) source :=
    visited_eq hs (by unfold nesting; omega) source
  rw [← hlevels] at hyields ⊢
  have hturns : DoesTurns keep s source target known d names _ (mirrorFile keep) :=
    mirrorFile_succeedsInTurns.doesTurns hclear mirrorFile_doesTurns
  have hnever := (walk_ensures hs hq hp hz hturns (nesting s.files target)).mono (fun _ ht => ht) (fun _ _ ht => ht)
    fun e t ⟨done, f, rest, hsplit, hno⟩ => by
      obtain ⟨out, hy⟩ := hyields f (by rw [hsplit]; simp)
      exact hno out hy
  obtain ⟨_, t, ht, hmirrored⟩ := hnever.succeeds ((Mirrored.start hs).log log)
  exact ⟨t, hrun.trans ht, hmirrored⟩

end Exercise

end Handout
