import Handout.Proofs.Archive.Confinement
import Handout.Proofs.Archive.Rebuild
import Handout.Proofs.Files.Draft

/-!
# What an extraction leaves

A member is put to the place that its name tells, over what has been there, and the directories that lead there are
made where they are missing (`afterMember`).  An extraction that succeeds leaves what its members leave one after the
other (`extractListing_outcome`).  So a place holds a file if all members that go there are this file
(`outcome_of_same`), and a file that it holds was there before or is that of a member (`outcome_file`).
-/

namespace Handout.Archive

open Handout.Action Session

variable {s t u v : Session} {archive base : Path} {k : Location} {content : Handout.Content} {names place : List String}
  {data : Bytes} {m : Member} {members : List Member}

/-! ### Content after members -/

/-- The place to which a member goes, unless it goes nowhere. -/
def place? (archive : Path) (m : Member) : Option (List String) :=
  match memberPath archive m.name with
  | .ok (some path) => if path.parts.any noiseNames.contains then none else some path.parts
  | _ => none

/-- Content with directories at a place and on the way to it, wherever nothing has been. -/
def withDirectory (content : Handout.Content) (place : List String) : Handout.Content := fun names =>
  if names <+: place then (content names).or (some .directory) else content names

/-- Content with a file at a place. -/
def withFile (content : Handout.Content) (place : List String) (data : Bytes) : Handout.Content := fun names =>
  if names = place then some (.file data false) else withDirectory content place.dropLast names

/-- Content after a member has been extracted. -/
def afterMember (archive : Path) (content : Handout.Content) (m : Member) : Handout.Content :=
  match place? archive m with
  | none => content
  | some place =>
    match m.kind with
    | .directory => withDirectory content place
    | .file (.ok file) => withFile content place file.data
    | _ => content

/-- Content after members have been extracted one after the other. -/
def outcome (archive : Path) (content : Handout.Content) (members : List Member) : Handout.Content :=
  members.foldl (afterMember archive) content

/-- A member is a file that goes to a place. -/
def IsFileAt (archive : Path) (place : List String) (data : Bytes) (m : Member) : Prop :=
  place? archive m = some place ∧ ∃ file : Content, m.kind = .file (.ok file) ∧ file.data = data

theorem withDirectory_file {executable : Bool} : withDirectory content place names = some (.file data executable) ↔
    content names = some (.file data executable) := by
  unfold withDirectory
  split
  · cases content names <;> simp
  · rfl

theorem withFile_self : withFile content place data place = some (.file data false) := if_pos rfl

theorem withFile_file {other : Bytes} {executable : Bool} (hne : names ≠ place) :
    withFile content place other names = some (.file data executable) ↔ content names = some (.file data executable) := by
  unfold withFile
  rw [if_neg hne]
  exact withDirectory_file

/-- What a member does: nothing, or it makes a directory, or it writes a file. -/
theorem afterMember_cases (archive : Path) (content : Handout.Content) (m : Member) :
    afterMember archive content m = content ∨
    (∃ place, place? archive m = some place ∧ m.kind = .directory ∧
      afterMember archive content m = withDirectory content place) ∨
    ∃ place data, IsFileAt archive place data m ∧ afterMember archive content m = withFile content place data := by
  unfold afterMember
  cases hplace : place? archive m with
  | none => exact .inl rfl
  | some place =>
    cases hkind : m.kind with
    | directory => exact .inr (.inl ⟨place, rfl, rfl, rfl⟩)
    | file found =>
      cases found with
      | ok file => exact .inr (.inr ⟨place, file.data, ⟨hplace, file, hkind, rfl⟩, rfl⟩)
      | error fault => exact .inl rfl
    | link target => exact .inl rfl
    | special => exact .inl rfl

theorem afterMember_of_none (h : place? archive m = none) : afterMember archive content m = content := by
  unfold afterMember
  rw [h]

/-- A file that is there after a member was there before or is the member. -/
theorem afterMember_file {executable : Bool} (h : afterMember archive content m names = some (.file data executable)) :
    content names = some (.file data executable) ∨ executable = false ∧ IsFileAt archive names data m := by
  rcases afterMember_cases archive content m with he | ⟨place, -, -, he⟩ | ⟨place, other, hm, he⟩ <;> rw [he] at h
  · exact .inl h
  · exact .inl (withDirectory_file.1 h)
  · by_cases hne : names = place
    · subst hne
      rw [withFile_self] at h
      cases h
      exact .inr ⟨rfl, hm⟩
    · exact .inl ((withFile_file hne).1 h)

theorem afterMember_of_isFileAt (h : IsFileAt archive names data m) :
    afterMember archive content m names = some (.file data false) := by
  obtain ⟨hplace, file, hkind, rfl⟩ := h
  unfold afterMember
  rw [hplace, hkind]
  exact withFile_self

/-- A file stays where no member goes. -/
theorem afterMember_of_place {executable : Bool} (hplace : place? archive m ≠ some names)
    (h : content names = some (.file data executable)) : afterMember archive content m names = some (.file data executable) := by
  rcases afterMember_cases archive content m with he | ⟨place, -, -, he⟩ | ⟨place, other, hm, he⟩ <;> rw [he]
  · exact h
  · exact withDirectory_file.2 h
  · refine (withFile_file ?_).2 h
    rintro rfl
    exact hplace hm.1

theorem outcome_concat (archive : Path) (content : Handout.Content) (members : List Member) (m : Member) :
    outcome archive content (members ++ [m]) = afterMember archive (outcome archive content members) m :=
  List.foldl_concat ..

/-- A file that is there in the end was there before or is that of a member. -/
theorem outcome_file {executable : Bool} (h : outcome archive content members names = some (.file data executable)) :
    content names = some (.file data executable) ∨ executable = false ∧ ∃ m ∈ members, IsFileAt archive names data m := by
  induction members using List.reverseRecOn with
  | nil => exact .inl h
  | append_singleton members m ih =>
    rw [outcome_concat] at h
    rcases afterMember_file h with h | ⟨hflag, hm⟩
    · rcases ih h with h | ⟨hflag, m', hmem, hm'⟩
      · exact .inl h
      · exact .inr ⟨hflag, m', List.mem_append_left _ hmem, hm'⟩
    · exact .inr ⟨hflag, m, by simp, hm⟩

/-- Where all members that go to a place are the same file, this file is there in the end. -/
theorem outcome_of_same (hsome : ∃ m ∈ members, place? archive m = some names)
    (hall : ∀ m ∈ members, place? archive m = some names → IsFileAt archive names data m) :
    outcome archive content members names = some (.file data false) := by
  induction members using List.reverseRecOn with
  | nil =>
    obtain ⟨m, hm, -⟩ := hsome
    cases hm
  | append_singleton members m ih =>
    rw [outcome_concat]
    by_cases hm : place? archive m = some names
    · exact afterMember_of_isFileAt (hall m (by simp) hm)
    · obtain ⟨m', hmem, hm'⟩ := hsome
      have hbefore : m' ∈ members := by
        rcases List.mem_append.1 hmem with hmem | hmem
        · exact hmem
        · rw [List.mem_singleton.1 hmem] at hm'
          exact absurd hm' hm
      exact afterMember_of_place hm (ih ⟨m', hbefore, hm'⟩ fun x hx => hall x (List.mem_append_left _ hx))

/-! ### Extracting -/

/-- Below a directory there is some content, in which no file is executable. -/
structure Holding (s : Session) (base : Path) (k : Location) (content : Handout.Content) (u : Session) : Prop where
  within : Within s u k
  leads : u.LeadsTo base k
  stored : u.files.content k = content
  plain : ∀ names data, content names ≠ some (.file data true)

theorem Holding.log (h : Holding s base k content u) (record : LogRecord) :
    Holding s base k content { u with log := u.log ++ [record] } := ⟨h.within.log record, h.leads, h.stored, h.plain⟩

/-- Names that lead to the place of a member. -/
def IsQuiet (place : List String) : Prop := ∀ c ∈ place, IsName c ∧ c ∉ noiseNames

/-- Nothing is in the way of a member: its data can be read, no file is where it needs a directory, and no directory is
where it puts a file. -/
def Fits (content : Handout.Content) (place : List String) (m : Member) : Prop :=
  match m.kind with
  | .directory => ¬ Blocked content place
  | .file found => (∃ data, found = .ok ⟨data, none⟩) ∧ ¬ Blocked content place.dropLast ∧
      content place ≠ some .directory
  | _ => True

/-- Where a directory could be made, its names are proper. -/
theorem Holding.proper (h : Holding s base k content u) (hquiet : IsQuiet place)
    (hok : (Archive.makeDirectory (base.append place)).perform u = (.ok (), v)) : ∀ c ∈ place, IsProper c := by
  have hunpacks : Unpacks (Alone (Filled u base k)) base k fun rel => ∀ c ∈ rel, c ∉ noiseNames := unpacks_filled
  have hroom := hunpacks.room (fun c hc => (hquiet c hc).1) fun first _ hfirst c hc => (hquiet c (hfirst.subset hc)).2
  have hfilled : Filled u base k u := ⟨h.within.sound, h.leads, h.within.noLink, fun _ => .inl rfl⟩
  obtain ⟨hv, hdir⟩ := (makeDirectory_ensures hroom).ends hfilled hok
  exact fun c hc => hv.sound.files.proper_of_mem (by rw [hdir]; exact Option.some_ne_none _) hc

/-- A directory that could be made is there, with those that lead to it. -/
theorem Holding.made (h : Holding s base k content u) (hquiet : IsQuiet place)
    (hok : (Archive.makeDirectory (base.append place)).perform u = (.ok (), v)) : Made s u k place v := by
  have hrun := ok_of_perform_during hok
  rcases perform_makeDirectories h.within h.leads (h.proper hquiet hok) with ⟨t, ht, hmade⟩ | ⟨code, w, herror, -⟩
  · obtain rfl := (Prod.mk.inj (ht.symm.trans hrun)).2
    exact hmade
  · cases herror.symm.trans hrun

/-- Where a directory could be made, no file was in the way. -/
theorem Holding.not_blocked (h : Holding s base k content u) (hquiet : IsQuiet place)
    (hok : (Archive.makeDirectory (base.append place)).perform u = (.ok (), v)) : ¬ Blocked content place :=
  h.stored ▸ (h.made hquiet hok).free

/-- A directory that could be made. -/
theorem Holding.makeDirectory (h : Holding s base k content u) (hquiet : IsQuiet place)
    (hok : (Archive.makeDirectory (base.append place)).perform u = (.ok (), v)) :
    Holding s base k (withDirectory content place) v := by
  have hmade := h.made hquiet hok
  have hfree := h.not_blocked hquiet hok
  refine ⟨hmade.within, hmade.leads h.within h.leads, ?_, fun names data => ?_⟩
  · funext names
    have hold : u.files.get? (k ++ names) = content names := congrFun h.stored names
    unfold Files.content withDirectory
    rw [hmade.stored]
    by_cases hn : names <+: place
    · rw [if_pos ⟨List.prefix_append _ _, (List.prefix_append_right_inj k).2 hn⟩, if_pos hn]
      by_contra hne
      refine hfree ⟨names, hn, fun hnone => hne ?_, fun hdir => hne ?_⟩
      · rw [hnone]
        rfl
      · rw [hdir]
        rfl
    · rw [if_neg fun hboth => hn ((List.prefix_append_right_inj k).1 hboth.2), if_neg hn, hold]
  · rw [ne_eq, withDirectory_file]
    exact h.plain names data

/-- Where a file could be written in a directory, its name is proper. -/
theorem proper_of_writeFile {parent : Path} {dir : Location} {c : String} (hleads : u.LeadsTo parent dir) (hc : IsName c)
    (hok : (Action.writeFile (parent.child c).written data).perform u = (.ok (), v)) : IsProper c := by
  rcases perform_writeFile_cases (parent.child c).written data u with ⟨e, herror⟩ | ⟨loc, flag, hz, hfind, -⟩
  · cases herror.symm.trans hok
  refine ⟨hc, ?_, Path.not_mem_of_hasZero hz (by simp [Path.written, Path.child])⟩
  by_contra hlong
  cases hfind.symm.trans (find_child_of_long true hleads hc.plain (by omega))

/-- The file of a member that could be written, in a directory that has been made for it. -/
theorem Holding.writeFile {init : List String} {c : String} {w : Session} (h : Holding s base k content u)
    (hquiet : IsQuiet (init ++ [c])) (hmake : (Archive.makeDirectory (base.append init)).perform u = (.ok (), w))
    (hok : (Action.writeFile (base.append (init ++ [c])).written data).perform w = (.ok (), v)) :
    Holding s base k (withFile content (init ++ [c]) data) v ∧ content (init ++ [c]) ≠ some .directory := by
  have hinit : IsQuiet init := fun c' hc' => hquiet c' (List.mem_append_left _ hc')
  have hw := h.makeDirectory hinit hmake
  have hstored : ∀ names, w.files.get? (k ++ names) = withDirectory content init names := congrFun hw.stored
  have hdir : w.files.get? (k ++ init) = some .directory := (h.made hinit hmake).directory
  have hleads := hw.leads.append hw.within.sound hdir
  have hchild : base.append (init ++ [c]) = (base.append init).child c := by rw [Path.child_eq_append, Path.append_append]
  have hproper : IsProper c := proper_of_writeFile hleads (hquiet c (by simp)).1 (by rwa [← hchild])
  have hnolink : ∀ target, w.files.get? (k ++ init ++ [c]) ≠ some (.link target) := by
    intro target
    rw [List.append_assoc]
    exact hw.within.noLink _ target
  have hreaches := reaches_child hleads hw.within.sound hproper hnolink
  rw [← hchild] at hreaches
  -- a file that is written over keeps its executable flag, and no file below the base has one
  have hflag : Flagged (w.files.get? (k ++ init ++ [c])) false := by
    cases hnode : w.files.get? (k ++ init ++ [c]) with
    | none => exact .inl ⟨rfl, rfl⟩
    | some node =>
      cases node with
      | directory =>
        have hrefused := perform_writeFile_directory data (w := (base.append (init ++ [c])).written) hreaches rfl hnode
        cases hrefused.symm.trans hok
      | link target => exact absurd hnode (hnolink target)
      | file old executable =>
        cases executable with
        | false => exact .inr ⟨old, rfl⟩
        | true =>
          rw [List.append_assoc, hstored] at hnode
          exact absurd hnode (hw.plain _ _)
  have hput := perform_writeFile data (w := (base.append (init ++ [c])).written) hreaches rfl hflag
  obtain rfl := (Prod.mk.inj (hput.symm.trans hok)).2
  refine ⟨⟨hw.within.put (List.prefix_append _ _) hdir hproper (fun hd => absurd hd hflag.ne_directory)
    (show Node.isLink (.file data false) = false from rfl), ?_, ?_, fun names data' => ?_⟩, fun hcontent => ?_⟩
  · refine hw.leads.mono rfl (fun y hy => ?_) fun y target hy => ?_
    · dsimp only
      rw [Files.get?_put_of_ne (by simp), hy]
      rintro rfl
      exact hflag.ne_directory hy
    · dsimp only
      rw [Files.get?_put_of_ne (by simp), hy]
      rintro rfl
      exact hnolink target hy
  · funext names
    unfold Files.content withFile
    dsimp only
    rw [List.append_assoc, Files.get?_put (by simp), hstored, List.dropLast_concat]
    simp only [List.append_cancel_left_eq]
  · by_cases hn : names = init ++ [c]
    · rw [hn, withFile_self]
      exact nofun
    · rw [ne_eq, withFile_file hn]
      exact h.plain names data'
  · refine hflag.ne_directory ?_
    rw [List.append_assoc, hstored]
    unfold withDirectory
    rw [hcontent]
    exact ite_self _

/-- A member's directory is made, its file is written, and all of its data could be read. -/
theorem ok_of_writeMember {init : List String} {c : String} {file : Content}
    (hok : (Archive.writeMember archive (base.append (init ++ [c])) file).perform u = (.ok (), v)) :
    ∃ w, (Archive.makeDirectory (base.append init)).perform u = (.ok (), w) ∧
      (Action.writeFile (base.append (init ++ [c])).written file.data).perform w = (.ok (), v) ∧ file.fault = none := by
  unfold Archive.writeMember at hok
  rw [Path.parent_append_concat] at hok
  obtain ⟨_, w, hmake, hrest⟩ := ok_of_perform_bind hok
  obtain ⟨_, x, hwrite, hfault⟩ := ok_of_perform_bind (ok_of_perform_during hrest)
  cases hend : file.fault with
  | some fault =>
    rw [hend] at hfault
    cases hfault
  | none =>
    rw [hend] at hfault
    obtain rfl := (Prod.mk.inj hfault).2
    exact ⟨w, hmake, hwrite, rfl⟩

/-- A member that could be extracted. -/
theorem Holding.extractMember (h : Holding s base k content u) (hquiet : IsQuiet place) (hne : place ≠ [])
    (hplace : place? archive m = some place)
    (hok : (Archive.extractMember archive (base.append place) m).perform u = (.ok (), v)) :
    Holding s base k (afterMember archive content m) v ∧ Fits content place m := by
  have hreadable : m.encrypted = false := by
    cases hencrypted : m.encrypted with
    | false => rfl
    | true =>
      unfold Archive.extractMember at hok
      rw [hencrypted] at hok
      cases hok
  unfold Archive.extractMember at hok
  unfold afterMember Fits
  rw [hplace]
  cases hkind : m.kind with
  | directory =>
    rw [hreadable, hkind] at hok
    exact ⟨h.makeDirectory hquiet hok, h.not_blocked hquiet hok⟩
  | file found =>
    rw [hreadable, hkind] at hok
    cases found with
    | ok file =>
      obtain ⟨init, c, rfl⟩ : ∃ init c, place = init ++ [c] := ⟨_, _, (List.dropLast_concat_getLast hne).symm⟩
      obtain ⟨w, hmake, hwrite, hfault⟩ := ok_of_writeMember hok
      obtain ⟨hv, hdir⟩ := h.writeFile hquiet hmake hwrite
      have hinit : IsQuiet init := fun c' hc' => hquiet c' (List.mem_append_left _ hc')
      refine ⟨hv, ⟨file.data, ?_⟩, ?_, hdir⟩
      · rw [← hfault]
      · rw [List.dropLast_concat]
        exact h.not_blocked hinit hmake
    | error fault => cases hok
  | link target =>
    rw [hreadable, hkind] at hok
    obtain rfl := (Prod.mk.inj hok).2
    exact ⟨h.log _, trivial⟩
  | special =>
    rw [hreadable, hkind] at hok
    obtain rfl := (Prod.mk.inj hok).2
    exact ⟨h.log _, trivial⟩

/-! ### One member after the other -/

/-- Extracts a member to its place below a base. -/
def putMember (archive base : Path) (m : Member) : Action Unit := do
  match ← Action.query fun _ => memberPath archive m.name with
  | none => return ()
  | some path =>
    if path.parts.any noiseNames.contains then return ()
    Archive.extractMember archive (base.join path) m

/-- All members are extracted, and then there is the fault of the listing. -/
theorem extractListing_eq (archive base : Path) (l : Listing) :
    extractListing archive base l = (do
      l.members.forM (putMember archive base)
      match l.fault with
      | some fault => throw (fault.failure archive)
      | none => return ()) := rfl

/-- What becomes of a member: its name is refused, or it goes nowhere, or it is extracted to its place. -/
theorem putMember_cases (archive base : Path) (m : Member) (u : Session) :
    (∃ e, memberPath archive m.name = .error e ∧ (putMember archive base m).perform u = (.error e, u)) ∨
    (∃ answer, memberPath archive m.name = .ok answer ∧ place? archive m = none ∧
      (putMember archive base m).perform u = (.ok (), u)) ∨
    ∃ path, memberPath archive m.name = .ok (some path) ∧ place? archive m = some path.parts ∧ path.parts ≠ [] ∧
      IsQuiet path.parts ∧
      (putMember archive base m).perform u = (Archive.extractMember archive (base.append path.parts) m).perform u := by
  unfold putMember place?
  rw [perform_bind, perform_query]
  cases hpath : memberPath archive m.name with
  | error e => exact .inl ⟨e, rfl, rfl⟩
  | ok answer =>
    cases answer with
    | none => exact .inr (.inl ⟨none, rfl, rfl, rfl⟩)
    | some path =>
      obtain ⟨hrelative, hne, hnamed⟩ := memberPath_named hpath
      dsimp only
      by_cases hnoise : path.parts.any noiseNames.contains = true
      · rw [if_pos hnoise, if_pos hnoise]
        exact .inr (.inl ⟨some path, rfl, rfl, rfl⟩)
      · rw [if_neg hnoise, if_neg hnoise, Path.join_eq_append base hrelative]
        refine .inr (.inr ⟨path, rfl, rfl, hne, fun c hc => ⟨hnamed c hc, fun hmem => hnoise ?_⟩, rfl⟩)
        exact List.any_eq_true.2 ⟨c, hc, by simpa using hmem⟩

/-- A member that could be put to its place. -/
theorem Holding.putMember (h : Holding s base k content u)
    (hok : (Archive.putMember archive base m).perform u = (.ok (), v)) :
    Holding s base k (afterMember archive content m) v ∧ (∃ answer, memberPath archive m.name = .ok answer) ∧
      ∀ place, place? archive m = some place → Fits content place m := by
  rcases putMember_cases archive base m u with ⟨e, -, hrun⟩ | ⟨answer, hanswer, hnone, hrun⟩ |
    ⟨path, hpath, hplace, hne, hquiet, hrun⟩
  · cases hrun.symm.trans hok
  · obtain rfl := (Prod.mk.inj (hrun.symm.trans hok)).2
    rw [afterMember_of_none hnone, hnone]
    exact ⟨h, ⟨answer, hanswer⟩, nofun⟩
  · obtain ⟨hv, hfits⟩ := h.extractMember hquiet hne hplace (hrun.symm.trans hok)
    refine ⟨hv, ⟨some path, hpath⟩, fun place hsome => ?_⟩
    rw [hplace] at hsome
    obtain rfl := Option.some.inj hsome
    exact hfits

/-- What a successful extraction leaves. -/
theorem extractListing_outcome {l : Listing} (h : Holding s base k content u)
    (hok : (extractListing archive base l).perform u = (.ok (), v)) :
    Holding s base k (outcome archive content l.members) v := by
  rw [extractListing_eq] at hok
  obtain ⟨_, w, hloop, hfault⟩ := ok_of_perform_bind hok
  obtain rfl : v = w := by
    split at hfault
    · cases hfault
    · exact (Prod.mk.inj hfault).2.symm
  have hensures : Ensures (fun t => Holding s base k (outcome archive content []) t)
      (l.members.forM (Archive.putMember archive base))
      (fun _ t => Holding s base k (outcome archive content l.members) t) fun _ _ => True := by
    refine Ensures.forM (fun done t => Holding s base k (outcome archive content done) t) fun done m rest _ t ht => ?_
    rcases hrun : (Archive.putMember archive base m).perform t with ⟨r, x⟩
    cases r with
    | error e => trivial
    | ok _ =>
      rw [outcome_concat]
      exact (ht.putMember hrun).1
  exact hensures.ends h hloop

/-- A directory in which there are at most directories. -/
theorem Holding.start (hs : s.Sound) (hleads : s.LeadsTo base k) (hstored : s.files.content k = content)
    (hcontent : ∀ names, content names = none ∨ content names = some .directory) : Holding s base k content s := by
  refine ⟨.refl hs (hleads.directory hs) fun names target hlink => ?_, hleads, hstored, fun names data hfile => ?_⟩
  · rw [show s.files.get? (k ++ names) = content names from congrFun hstored names] at hlink
    rcases hcontent names with hnone | hdir
    · cases hnone.symm.trans hlink
    · cases hdir.symm.trans hlink
  · rcases hcontent names with hnone | hdir
    · cases hnone.symm.trans hfile
    · cases hdir.symm.trans hfile

/-- An empty directory. -/
def bare : Handout.Content := fun names => if names = [] then some .directory else none

theorem bare_cases (names : List String) : bare names = none ∨ bare names = some .directory := by
  unfold bare
  split
  · exact .inr rfl
  · exact .inl rfl

theorem bare_ne_file (names : List String) (data : Bytes) (executable : Bool) : bare names ≠ some (.file data executable) := by
  rcases bare_cases names with hnone | hdir
  · rw [hnone]
    exact nofun
  · rw [hdir]
    exact nofun

/-- What the extraction of an archive into a new directory leaves, if it succeeds. -/
theorem extract_outcome {name : String} {format : Format} {l : Listing} (hs : s.Sound) (hleads : s.LeadsTo base k)
    (hbare : s.files.content k = bare) (hname : IsName name ∧ name ∉ noiseNames)
    (hdata : ∀ v, Within s v k → v.content? archive.written = .ok data) (hread : read? data = .ok (some (format, l)))
    (hok : (extract archive (base.append [name])).perform s = (.ok (), t)) :
    Within s t k ∧ t.LeadsTo (base.append [name]) (k ++ [name]) ∧
      t.files.content (k ++ [name]) = outcome archive bare l.members := by
  unfold extract at hok
  obtain ⟨_, u, hmake, hrest⟩ := ok_of_perform_bind hok
  have hmade := (Holding.start hs hleads hbare bare_cases).makeDirectory (by simpa [IsQuiet] using hname) hmake
  have hfile : (during .read archive (readFile archive)).perform u = (.ok data, u) := by
    unfold readFile
    rw [perform_during, perform_query, hdata u hmade.within]
  rw [perform_bind_ok hfile, perform_bind, perform_query, hread] at hrest
  have hinner : u.files.content (k ++ [name]) = bare := by
    funext names
    have hstored : u.files.get? (k ++ ([name] ++ names)) = withDirectory bare [name] ([name] ++ names) :=
      congrFun hmade.stored ([name] ++ names)
    unfold Files.content
    rw [List.append_assoc, hstored]
    unfold withDirectory bare
    cases names <;> simp
  have hdir : u.files.get? (k ++ [name]) = some .directory := by
    have hroot := congrFun hinner []
    unfold Files.content at hroot
    rwa [List.append_nil] at hroot
  have hextracted := extractListing_outcome
    (.start hmade.within.sound (hmade.leads.append hmade.within.sound hdir) hinner bare_cases) hrest
  exact ⟨hmade.within.widen (List.prefix_append _ _) hextracted.within, hextracted.leads, hextracted.stored⟩

end Handout.Archive
