import Handout.Proofs.Files.Containment
import Handout.Proofs.Files.Parents
import Handout.Proofs.Submission.Pack

/-!
# Packages are put together in their place

Whatever is merged into a package, each copy goes below the directory of the package or, for a project whose path
ends with `..`, below its parent.  So a property that tolerates what happens there (`Holds`) is preserved by all steps
of the packaging, for every clone and every submission (`furnish_within`).
-/

namespace Handout

open Handout.Action Session

variable {P : Session → Prop} {k : Location} {p q source : Path} {names : List String}

/-! ### Paths that have been read -/

namespace Path

theorem isRead_ofString (text : String) : (ofString text).IsRead := fun _ => Path.isName_of_mem_ofString

theorem IsRead.append (h : p.IsRead) (hp : ∀ c ∈ names, IsName c) : (p.append names).IsRead := by
  intro c hc hup
  rcases List.mem_append.1 hc with hc | hc
  · exact h c hc hup
  · exact hp c hc

/-- The last component of a path that has been read, if there is one, is a name or `..`. -/
theorem IsRead.name (h : p.IsRead) : p.name = "" ∨ p.name = ".." ∨ IsName p.name := by
  unfold Path.name
  cases hlast : p.parts.getLast? with
  | none => exact .inl rfl
  | some c =>
    rw [Option.getD_some]
    by_cases hup : c = ".."
    · exact .inr (.inl hup)
    · exact .inr (.inr (h c (List.mem_of_getLast? hlast) hup))

end Path

theorem isInside_of_proper (h : q.isAbsolute = false ∧ ∀ c ∈ q.parts, IsProper c) : Config.IsInside q :=
  ⟨h.1, fun c hc => (h.2 c hc).toIsName⟩

namespace Submission

/-- A property that tolerates what is packed into a directory: what happens below it, that its parents are made, and
what happens below its parent. -/
structure Holds (P : Session → Prop) (k : Location) : Prop where
  inside : Tolerates P k.path k
  parent : Preserves P (makeDirectories k.path.parent)
  above : Tolerates P (k.path.child "..") k.dropLast

namespace Holds

theorem copyMerge_preserves (h : Holds P k) (hp : ∀ c ∈ names, IsName c) (source : Path) :
    Preserves P (Submission.copyMerge source (k.path.append names)) := by
  refine Preserves.during (h.inside.copyMerge_preserves hp source ?_) _ _
  by_cases hne : names = []
  · rw [hne, Path.append_nil]
    exact h.parent
  · rw [Path.parent_append _ hne]
    exact h.inside.makeDirectories_preserves fun c hc => hp c (List.mem_of_mem_dropLast hc)

theorem copyIfExists_preserves (h : Holds P k) (hp : ∀ c ∈ names, IsName c) (source : Path) :
    Preserves P (copyIfExists source (k.path.append names)) := by
  refine Preserves.bind (Preserves.query _) fun there => ?_
  cases there with
  | true => exact h.copyMerge_preserves hp source
  | false => exact Preserves.pure _

theorem copyPart_preserves (h : Holds P k) (hq : Config.IsInside q) (source : Path) :
    Preserves P (copyIfExists source (k.path.join q)) := by
  rw [join_of_inside hq k.path]
  exact h.copyIfExists_preserves hq.2 source

theorem copyInto_preserves (h : Holds P k) (hs : source.IsRead) : Preserves P (Submission.copyInto source k.path) := by
  rw [copyInto_eq]
  rcases hs.name with hname | hname | hname
  · rw [hname, show k.path.join (.ofString "") = k.path.append [] from rfl]
    exact h.copyMerge_preserves (by simp) source
  · have htarget : k.path.join (.ofString source.name) = (k.path.child "..").append [] := by
      rw [hname, show Path.ofString ".." = ⟨.relative, [".."]⟩ by decide +kernel, Path.append_nil]
      rfl
    have hparent : ((k.path.child "..").append []).parent = k.path.append [] := by
      unfold Path.parent Path.append Path.child
      rw [List.append_nil, List.dropLast_concat, List.append_nil]
    rw [htarget]
    refine Preserves.during (h.above.copyMerge_preserves (by simp) source ?_) _ _
    rw [hparent]
    exact h.inside.makeDirectories_preserves (by simp)
  · have hnames : ∀ c ∈ [source.name], IsName c := by simpa using hname
    rw [Path.ofString_of_isName hname]
    exact h.copyMerge_preserves hnames source

theorem copyTopFiles_preserves (h : Holds P k) (hs : p.IsRead) : Preserves P (copyTopFiles p k.path) := by
  have hfiles : Ensures P (filesIn p) (fun files t => P t ∧ ∀ q ∈ files, q.IsRead) fun _ => P := by
    refine (looks_filesIn p).ensures_result fun t files ht hperform q hq => ?_
    obtain ⟨found, hfound, hmem⟩ := mem_filesIn hperform
    obtain ⟨c, hc, -, rfl⟩ := (hmem q).1 hq
    have hproper : IsProper c := Session.proper_of_names? (h.inside.sound t ht) hfound hc
    exact hs.append (by simpa using hproper.toIsName)
  refine Preserves.bind_of (hfiles.during .list p) fun files hread => ?_
  exact Preserves.forM fun q hq => h.copyInto_preserves (hread q hq)

theorem overlay_preserves (h : Holds P k) {ps : List Path} (hinside : ∀ q ∈ ps, Config.IsInside q) (project : Path) :
    Preserves P (overlay project k.path ps) :=
  Preserves.forM fun q hq => h.copyPart_preserves (hinside q hq) _

theorem gather_preserves (h : Holds P k) {ps : List Path} (hinside : ∀ q ∈ ps, Config.IsInside q) (hs : p.IsRead) :
    Preserves P (gather p k.path ps) := by
  refine Preserves.forM fun q hq => Preserves.bind (Preserves.query _) fun there => ?_
  cases there with
  | true =>
    refine h.copyInto_preserves ?_
    rw [join_of_inside (hinside q hq) p]
    exact hs.append (hinside q hq).2
  | false => exact Preserves.pure _

theorem copyEnvironment_preserves (h : Holds P k) {name : String} (hname : IsName name) {projects : List Path}
    (hs : ∀ q ∈ projects, q.IsRead) : Preserves P (copyEnvironment k.path name projects) := by
  induction projects with
  | nil => exact Preserves.pure _
  | cons q rest ih =>
    refine Preserves.bind (Preserves.query _) fun there => ?_
    cases there with
    | true => exact h.copyInto_preserves ((hs q (List.mem_cons_self ..)).append (by simpa using hname))
    | false => exact ih fun q hq => hs q (List.mem_cons_of_mem _ hq)

theorem writeParams_preserves (h : Holds P k) (params : Params) :
    Preserves P (writeParams params (k.path.child paramsFileName)) := by
  have hname : ∀ c ∈ [paramsFileName], IsName c := by
    intro c hc
    rw [List.mem_singleton.1 hc]
    exact (by decide : IsProper paramsFileName).toIsName
  exact Preserves.during (h.inside.writeFile_preserves hname rfl _) _ _

theorem merge_preserves (h : Holds P k) {received clone tests : Path} {layout : PackagingLayout} (hreceived : received.IsRead)
    (hclone : clone.IsRead) (htests : tests.IsRead)
    (hinside : ∀ q ∈ layout.studentPaths ++ layout.exercisePaths, Config.IsInside q) (style : PackagingStyle) :
    Preserves P (merge style ⟨received, clone, tests, k.path⟩ layout) := by
  have hstudent : ∀ q ∈ layout.studentPaths, Config.IsInside q := fun q hq => hinside q (List.mem_append_left _ hq)
  have hexercise : ∀ q ∈ layout.exercisePaths, Config.IsInside q := fun q hq => hinside q (List.mem_append_right _ hq)
  have hname : ∀ {name}, IsProper name → ∀ c ∈ [name], IsName c := fun hproper c hc =>
    (List.mem_singleton.1 hc ▸ hproper).toIsName
  cases style with
  | maven =>
    have hmain : Config.IsInside (.ofString "src/main") := isInside_of_proper (by decide +kernel)
    have htest : Config.IsInside (.ofString "src/test") := isInside_of_proper (by decide +kernel)
    unfold merge mergeMaven
    dsimp only
    refine (h.copyInto_preserves (hclone.append (hname (by decide : IsProper "pom.xml")))).bind fun _ => ?_
    refine (h.copyPart_preserves hmain _).bind fun _ => (h.copyPart_preserves htest _).bind fun _ => ?_
    refine (h.overlay_preserves hstudent received).bind fun _ => ?_
    exact (h.overlay_preserves hexercise tests).bind fun _ => h.copyTopFiles_preserves hclone
  | make =>
    unfold merge mergeMake
    dsimp only
    refine (h.copyIfExists_preserves (hname (by decide : IsProper "src")) _).bind fun _ => ?_
    refine (h.copyIfExists_preserves (hname (by decide : IsProper "test")) _).bind fun _ => ?_
    exact (h.overlay_preserves hstudent received).bind fun _ => h.copyTopFiles_preserves htests
  | generic =>
    unfold merge mergeGeneric
    dsimp only
    refine (h.copyIfExists_preserves (hname (by decide : IsProper "lib")) _).bind fun _ => ?_
    refine (h.gather_preserves hstudent hreceived).bind fun _ => ?_
    exact (h.gather_preserves hexercise htests).bind fun _ => h.copyTopFiles_preserves hclone

/-- Filling the directory of a package. -/
theorem fill_preserves (h : Holds P k) (hlog : ∀ s record, P s → P { s with log := s.log ++ [record] })
    {received clone tests : Path} (hreceived : received.IsRead) (hclone : clone.IsRead) (htests : tests.IsRead)
    (params : Params) (e : Ecosystem) : Preserves P (fill params clone e received tests k.path) := by
  have hload : Ensures P (Config.load clone) (fun c s => P s ∧ c.Inside) fun _ => P :=
    (Config.looks_load clone).ensures_result fun _ _ _ => Config.inside_of_load
  have hnames : ∀ name ∈ environmentNames, IsProper name := by decide +kernel
  unfold fill
  refine (h.writeParams_preserves params).bind fun _ => Preserves.bind (Preserves.forM fun name hname => ?_) fun _ => ?_
  · exact h.copyEnvironment_preserves (hnames name hname).toIsName (by simp [hreceived, hclone])
  have hlayout : Ensures P (e.layout clone)
      (fun layout s => P s ∧ ∀ q ∈ layout.studentPaths ++ layout.exercisePaths, Config.IsInside q) fun _ => P :=
    hload.bind fun c => Ensures.of_and fun hc => Ensures.pure fun _ hs => ⟨hs, inside_layout hc e⟩
  refine Preserves.bind_of hlayout fun layout hinside => (Preserves.note hlog _ _ _).bind fun _ => ?_
  refine (h.merge_preserves hreceived hclone htests hinside e.style).bind fun _ => ?_
  refine Preserves.bind_of hload fun c hc => h.overlay_preserves (fun q hq => ?_) received
  exact hc .extraStudentFiles q ((sortBy_perm _ _).mem_iff.1 hq)

end Holds

/-! ### The temporary directory -/

variable {s t u : Session} {base : Path} {d : Location} {request : Request}

/-- Only the temporary directory has changed, and in it the directory of the package is there. -/
structure Packaging (s t : Session) : Prop where
  within : Within s.opened t s.scratch
  package : t.files.get? (s.scratch ++ ["dest"]) = some .directory

theorem Packaging.log (h : Packaging s t) (record : LogRecord) : Packaging s { t with log := t.log ++ [record] } :=
  ⟨h.within.log record, h.package⟩

theorem tolerates_within :
    Tolerates (fun t => Within s.opened t s.scratch) s.scratch.path s.scratch where
  sound _ ht := ht.sound
  leads _ ht := leadsTo_path ht.sound ht.directory
  noLink _ ht := ht.noLink
  put _ _ _ _ ht hd hc hold hnode := ht.put (List.prefix_append _ _) hd hc (fun h => absurd h hold) hnode

theorem tolerates_packaging (hd : s.scratch <+: d) (hleads : ∀ t, Packaging s t → t.LeadsTo base d) :
    Tolerates (Packaging s) base d where
  sound _ ht := ht.within.sound
  leads := hleads
  noLink _ ht rel text := ht.within.ne_link (hd.trans (List.prefix_append _ _)) text
  put t rel c node ht hdir hc hold hnode := by
    refine ⟨ht.within.put (hd.trans (List.prefix_append _ _)) hdir hc (fun h => absurd h hold) hnode, ?_⟩
    refine (Files.get?_put_of_ne (by simp) fun he => ?_).trans ht.package
    exact hold (he ▸ ht.package)

/-- What is packed stays in the temporary directory. -/
theorem holds_packaging : Holds (Packaging s) (s.scratch ++ ["dest"]) where
  inside := tolerates_packaging (List.prefix_append _ _) fun t ht => leadsTo_path ht.within.sound ht.package
  parent := by
    have hscratch : Tolerates (Packaging s) s.scratch.path s.scratch :=
      tolerates_packaging (List.prefix_refl _) fun t ht => leadsTo_path ht.within.sound ht.within.directory
    have hparent : (Location.path (s.scratch ++ ["dest"])).parent = s.scratch.path.append [] := by
      unfold Path.parent Location.path
      rw [List.dropLast_concat, Path.append_nil]
    rw [hparent]
    exact hscratch.makeDirectories_preserves (by simp)
  above := by
    rw [List.dropLast_concat]
    refine tolerates_packaging (List.prefix_refl _) fun t ht => ?_
    obtain ⟨n, hn, hleads⟩ := leadsTo_path ht.within.sound ht.package
    refine ⟨n, hn, Files.leads_append.2 ⟨_, n, 0, hleads, .up ?_, rfl⟩⟩
    rw [List.dropLast_concat]
    exact .here _

theorem isRead_of_isDirectoryIn (hs : s.Sound) (h : IsDirectoryIn s.files d p) : p.IsRead := by
  obtain ⟨rel, rfl, hdir⟩ := h
  have hn : s.files.get? (d ++ rel) ≠ none := by
    rw [hdir]
    exact Option.some_ne_none _
  exact fun c hc _ => (proper_of_exists hs hn hc).toIsName

/-- Fetching the tests changes the temporary directory only. -/
theorem testsOf_within (hclone : request.clone.IsRead) :
    Ensures (fun t => Within s.opened t s.scratch) (testsOf request s.scratch.path)
      (fun tests t => Within s.opened t s.scratch ∧ tests.IsRead) fun _ t => Within s.opened t s.scratch := by
  unfold testsOf
  split
  · exact Ensures.pure fun _ ht => ⟨ht, hclone⟩
  · rename_i archive _
    have hname : ∀ c ∈ ["stub"], IsName c := by
      intro c hc
      rw [List.mem_singleton.1 hc]
      exact (by decide : IsProper "stub").toIsName
    refine (Archive.extract_ensures archive (unpacks_within s) (fun _ _ _ _ => trivial) hname).bind fun _ t ht => ?_
    obtain ⟨ht, hd⟩ := ht
    have hfind := Archive.findProject_ensures archive hd (P := fun u => Within s.opened u s.scratch ∧ u.files = t.files)
      (fun u hu => ⟨hu.1.sound, fun rel => by rw [hu.2], fun rel text => ?_⟩) fun u record hu => ⟨hu.1.log record, hu.2⟩
    · refine (hfind t ⟨ht, rfl⟩).mono (fun tests u hu => ⟨hu.1.1, ?_⟩) fun _ u hu => hu.1
      exact isRead_of_isDirectoryIn hu.1.1.sound (hu.1.2 ▸ hu.2)
    · rw [List.append_assoc]
      exact ht.noLink _ text

/-- Furnishing the package changes the temporary directory only. -/
theorem furnish_within {r : Path × Ecosystem} (hclone : request.clone.IsRead) (hreceived : r.1.IsRead) :
    Ensures (fun t => Within s.opened t s.scratch) (furnish request s.scratch.path r) (fun _ => Packaging s)
      fun _ t => Within s.opened t s.scratch := by
  have hname : ∀ c ∈ ["dest"], IsName c := by
    intro c hc
    rw [List.mem_singleton.1 hc]
    exact (by decide : IsProper "dest").toIsName
  have hmake : Ensures (fun t => Within s.opened t s.scratch) (makeDirectory (s.scratch.path.child "dest").written)
      (fun _ => Packaging s) fun _ t => Within s.opened t s.scratch :=
    ensures_iff_relates.2 ((makeDirectory_relates (tolerates_within.room hname) rfl).mono (fun _ _ hst => hst)
      (fun _ _ _ hst => ⟨hst.1.1, hst.1.2, hst.2⟩) fun _ _ _ _ he => he)
  unfold furnish
  refine (testsOf_within hclone).bind fun tests => Ensures.of_and fun htests => (hmake.during _ _).bind fun _ => ?_
  exact (holds_packaging.fill_preserves (fun t record ht => ht.log record) hreceived hclone htests request.params r.2).ensures.mono
    (fun _ ht => ht) (fun _ _ ht => ht) fun _ _ ht => ht.within

end Submission

end Handout
