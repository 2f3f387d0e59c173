import Handout.Proofs.Archive.Outcome

/-!
# What the members of an archive leave

An extraction that has come through some members leaves what the list of these says as a whole (`Extracted`): each file
holds the data of the last regular file that goes to its place, and the directories are those of the members and those
that lead to a member, with the ones that were made for the target itself (`IsMade`).  A member keeps this up when
nothing is in its way (`Extracted.concat`), and that is so whenever it could be extracted (`Holding.putMember`).  A
member that could not be extracted changes nothing but what leads to its place (`Interrupted`).  So an extraction that
succeeds leaves what all members say, and one that meets an unsafe name fails after the members before
(`extract_members`).
-/

namespace Handout.Archive

open Handout.Action Session

variable {s t u v : Session} {archive base target : Path} {k : Location} {content old new : Handout.Content}
  {made : List String → Prop} {names place : List String} {data : Bytes} {m : Member} {members done : List Member}

/-! ### Reading a list of members -/

/-- A name as it is read, with backslashes for slashes. -/
def readName (name : String) : Path :=
  Path.ofString (String.ofList (name.toList.map fun c => if c = '\\' then '/' else c))

/-- A name that is absolute or has a `..` component. -/
def IsUnsafe (name : String) : Prop := (readName name).isAbsolute = true ∨ ".." ∈ (readName name).parts

instance (name : String) : Decidable (IsUnsafe name) := inferInstanceAs (Decidable (_ ∨ _))

/-- The names of unsafe members are refused. -/
theorem memberPath_eq_error_iff {name : String} : (∃ e, memberPath archive name = .error e) ↔ IsUnsafe name := by
  unfold memberPath IsUnsafe
  rw [show Path.ofString (String.ofList (name.toList.map fun c => if c = '\\' then '/' else c)) = readName name from rfl]
  dsimp only
  split
  · rename_i hrefused
    rw [Bool.or_eq_true, List.contains_iff_mem] at hrefused
    exact ⟨fun _ => hrefused, fun _ => ⟨_, rfl⟩⟩
  · rename_i hsafe
    rw [Bool.or_eq_true, List.contains_iff_mem] at hsafe
    refine iff_of_false ?_ hsafe
    rintro ⟨e, he⟩
    cases he

/-- The data of a member that is a regular file and goes to a place. -/
def dataAt? (archive : Path) (place : List String) (m : Member) : Option Bytes :=
  match m.kind with
  | .file (.ok file) => if place? archive m = some place then some file.data else none
  | _ => none

/-- The data of the last member that is a regular file and goes to a place. -/
def lastData? (archive : Path) (members : List Member) (place : List String) : Option Bytes :=
  members.reverse.findSome? (dataAt? archive place)

/-- At some names a member has a directory: it goes there itself, or the names lead to where it goes. -/
def HasDirectory (archive : Path) (names : List String) (m : Member) : Prop :=
  ∃ place, place? archive m = some place ∧ names <+: place ∧
    (m.kind = .directory ∨ (∃ found, m.kind = .file found) ∧ names ≠ place)

/-- What an extraction leaves that has come through some members, read off the list of the members.  Some directories
were made before the first member. -/
structure Extracted (archive : Path) (made : List String → Prop) (members : List Member) (content : Handout.Content) :
    Prop where
  safe : ∀ m ∈ members, ¬ IsUnsafe m.name
  readable : ∀ m ∈ members, place? archive m ≠ none → ∀ found, m.kind = .file found → ∃ data, found = .ok ⟨data, none⟩
  file_iff : ∀ names data executable, content names = some (.file data executable) ↔
    executable = false ∧ lastData? archive members names = some data
  directory_iff : ∀ names, content names = some .directory ↔ made names ∨ ∃ m ∈ members, HasDirectory archive names m
  noLink : ∀ names text, content names ≠ some (.link text)

theorem dataAt?_of_none (h : place? archive m = none) (place : List String) : dataAt? archive place m = none := by
  unfold dataAt?
  rw [h]
  split <;> rfl

theorem dataAt?_of_not_file (h : ∀ found, m.kind ≠ .file found) (place : List String) : dataAt? archive place m = none := by
  unfold dataAt?
  split
  · rename_i hkind
    exact absurd hkind (h _)
  · rfl

theorem lastData?_concat (archive : Path) (done : List Member) (m : Member) (place : List String) :
    lastData? archive (done ++ [m]) place = (dataAt? archive place m).or (lastData? archive done place) := by
  unfold lastData?
  rw [List.reverse_concat, List.findSome?_cons]
  cases dataAt? archive place m <;> rfl

theorem extracted_nil (h : ∀ names, content names = some .directory ∧ made names ∨ content names = none ∧ ¬ made names) :
    Extracted archive made [] content where
  safe m hm := absurd hm List.not_mem_nil
  readable m hm := absurd hm List.not_mem_nil
  file_iff names data executable := by
    refine iff_of_false (fun hfile => ?_) nofun
    rcases h names with ⟨hdir, -⟩ | ⟨hnone, -⟩
    · cases hdir.symm.trans hfile
    · cases hnone.symm.trans hfile
  directory_iff names := by
    rcases h names with ⟨hdir, hmade⟩ | ⟨hnone, hnot⟩
    · simp [hdir, hmade]
    · simp [hnone, hnot]
  noLink names text hlink := by
    rcases h names with ⟨hdir, -⟩ | ⟨hnone, -⟩
    · cases hdir.symm.trans hlink
    · cases hnone.symm.trans hlink

/-- What is at some names after a directory has been made. -/
theorem withDirectory_directory_iff (h : ¬ Blocked old place) :
    withDirectory old place names = some .directory ↔ old names = some .directory ∨ names <+: place := by
  unfold withDirectory
  split
  · rename_i hway
    have hfree : old names = none ∨ old names = some .directory := by
      by_contra hold
      exact h ⟨names, hway, fun hn => hold (.inl hn), fun hd => hold (.inr hd)⟩
    rcases hfree with hold | hold <;> simp [hold, hway]
  · rename_i hway
    simp [hway]

theorem withDirectory_link_iff {text : String} :
    withDirectory old place names = some (.link text) ↔ old names = some (.link text) := by
  unfold withDirectory
  split
  · cases old names <;> simp
  · rfl

/-- A member that goes nowhere, or is neither a regular file nor a directory, changes nothing. -/
private theorem Extracted.skip (h : Extracted archive made done content) (hsafe : ¬ IsUnsafe m.name)
    (hskip : place? archive m = none ∨ m.kind ≠ .directory ∧ ∀ found, m.kind ≠ .file found) :
    Extracted archive made (done ++ [m]) content := by
  have hdata : ∀ place, dataAt? archive place m = none := fun place =>
    hskip.elim (fun hnone => dataAt?_of_none hnone place) fun hkind => dataAt?_of_not_file hkind.2 place
  have hdirectory : ∀ names, ¬ HasDirectory archive names m := by
    rintro names ⟨place, hplace, -, hkind⟩
    rcases hskip with hnone | ⟨hno, hnofile⟩
    · cases hnone.symm.trans hplace
    · exact hkind.elim hno fun hfile => hnofile _ hfile.1.choose_spec
  refine ⟨?_, ?_, fun names data executable => ?_, fun names => ?_, h.noLink⟩
  · simpa [or_imp, forall_and] using ⟨h.safe, hsafe⟩
  · intro x hx hplace found hkind
    rcases List.mem_append.1 hx with hx | hx
    · exact h.readable x hx hplace found hkind
    · rw [List.mem_singleton.1 hx] at hplace hkind
      exact hskip.elim (fun hnone => absurd hnone hplace) fun hno => absurd hkind (hno.2 found)
  · rw [lastData?_concat, hdata, Option.none_or]
    exact h.file_iff names data executable
  · rw [h.directory_iff]
    simp [or_and_right, exists_or, hdirectory names]

/-- A member that is a directory, with no file in its way. -/
private theorem Extracted.directory (h : Extracted archive made done content) (hsafe : ¬ IsUnsafe m.name)
    (hplace : place? archive m = some place) (hkind : m.kind = .directory) (hfree : ¬ Blocked content place) :
    Extracted archive made (done ++ [m]) (withDirectory content place) := by
  have hnofile : ∀ found, m.kind ≠ .file found := fun found hfile => by cases hkind.symm.trans hfile
  have hdirectory : ∀ names, HasDirectory archive names m ↔ names <+: place := by
    intro names
    unfold HasDirectory
    rw [hplace]
    simp [hkind]
  refine ⟨?_, ?_, fun names data executable => ?_, fun names => ?_, fun names text => ?_⟩
  · simpa [or_imp, forall_and] using ⟨h.safe, hsafe⟩
  · intro x hx hsome found hfile
    rcases List.mem_append.1 hx with hx | hx
    · exact h.readable x hx hsome found hfile
    · rw [List.mem_singleton.1 hx] at hfile
      exact absurd hfile (hnofile found)
  · rw [lastData?_concat, dataAt?_of_not_file hnofile, Option.none_or, withDirectory_file]
    exact h.file_iff names data executable
  · rw [withDirectory_directory_iff hfree, h.directory_iff]
    simp [or_and_right, exists_or, hdirectory names, or_assoc]
  · rw [ne_eq, withDirectory_link_iff]
    exact h.noLink names text

/-- A member that is a regular file, with no file in its way and no directory in its place. -/
private theorem Extracted.file (h : Extracted archive made done content) (hsafe : ¬ IsUnsafe m.name)
    (hplace : place? archive m = some place) (hne : place ≠ []) (hkind : m.kind = .file (.ok ⟨data, none⟩))
    (hfree : ¬ Blocked content place.dropLast) (hdir : content place ≠ some .directory) :
    Extracted archive made (done ++ [m]) (withFile content place data) := by
  have hdata : ∀ names, dataAt? archive names m = if names = place then some data else none := by
    intro names
    unfold dataAt?
    rw [hkind, hplace]
    simp [eq_comm]
  have hdirectory : ∀ names, HasDirectory archive names m ↔ names <+: place ∧ names ≠ place := by
    intro names
    unfold HasDirectory
    rw [hplace]
    simp [hkind]
  have hproper : ∀ names, names <+: place.dropLast ↔ names <+: place ∧ names ≠ place := by
    intro names
    obtain ⟨init, c, rfl⟩ : ∃ init c, place = init ++ [c] := ⟨_, _, (List.dropLast_concat_getLast hne).symm⟩
    rw [List.dropLast_concat, List.prefix_concat_iff]
    constructor
    · intro hinit
      refine ⟨.inr hinit, ?_⟩
      rintro rfl
      exact not_concat_prefix_self init c hinit
    · exact fun hboth => hboth.1.resolve_left hboth.2
  refine ⟨?_, ?_, fun names data' executable => ?_, fun names => ?_, fun names text => ?_⟩
  · simpa [or_imp, forall_and] using ⟨h.safe, hsafe⟩
  · intro x hx hsome found hfile
    rcases List.mem_append.1 hx with hx | hx
    · exact h.readable x hx hsome found hfile
    · rw [List.mem_singleton.1 hx, hkind] at hfile
      cases hfile
      exact ⟨data, rfl⟩
  -- the last member with data for its place is the new one
  · rw [lastData?_concat, hdata]
    by_cases hn : names = place
    · rw [hn, withFile_self, if_pos rfl, Option.some_or]
      simp [and_comm, eq_comm]
    · rw [withFile_file hn, if_neg hn, Option.none_or]
      exact h.file_iff names data' executable
  · simp only [List.mem_append, List.mem_singleton, or_and_right, exists_or, exists_eq_left, hdirectory]
    by_cases hn : names = place
    · subst hn
      rw [withFile_self]
      refine iff_of_false nofun ?_
      rintro (hmade | hbefore | hself)
      · exact hdir ((h.directory_iff names).2 (.inl hmade))
      · exact hdir ((h.directory_iff names).2 (.inr hbefore))
      · exact hself.2 rfl
    · unfold withFile
      rw [if_neg hn, withDirectory_directory_iff hfree, h.directory_iff, hproper, or_assoc]
  · unfold withFile
    split
    · exact nofun
    · rw [ne_eq, withDirectory_link_iff]
      exact h.noLink names text

theorem place?_ne_nil (h : place? archive m = some place) : place ≠ [] := by
  unfold place? at h
  split at h
  · rename_i path hpath
    split at h
    · cases h
    · cases h
      exact (memberPath_named hpath).2.1
  · cases h

/-- One more member is extracted, with nothing in its way. -/
theorem Extracted.concat (h : Extracted archive made done content) (hsafe : ¬ IsUnsafe m.name)
    (hfits : ∀ place, place? archive m = some place → Fits content place m) :
    Extracted archive made (done ++ [m]) (afterMember archive content m) := by
  unfold afterMember
  cases hplace : place? archive m with
  | none => exact h.skip hsafe (.inl hplace)
  | some place =>
    have hm := hfits place hplace
    unfold Fits at hm
    cases hkind : m.kind with
    | directory =>
      rw [hkind] at hm
      exact h.directory hsafe hplace hkind hm
    | file found =>
      rw [hkind] at hm
      obtain ⟨⟨data, rfl⟩, hfree, hdir⟩ := hm
      exact h.file hsafe hplace (place?_ne_nil hplace) hkind hfree hdir
    | link text => exact h.skip hsafe (.inr ⟨by rw [hkind]; exact nofun, by rw [hkind]; exact fun _ => nofun⟩)
    | special => exact h.skip hsafe (.inr ⟨by rw [hkind]; exact nofun, by rw [hkind]; exact fun _ => nofun⟩)

/-! ### Members that could not be extracted -/

/-- What may have become of some content where a member could not be extracted: directories are made where nothing was
on the way to its place, and at the place a file may have been written. -/
def Interrupted (archive : Path) (m : Member) (old new : Handout.Content) : Prop :=
  ∀ names, new names = old names ∨ ∃ place, place? archive m = some place ∧ names ≠ [] ∧ names <+: place ∧
    (old names = none ∧ new names = some .directory ∨
      names = place ∧ (∃ found, m.kind = .file found) ∧ old names ≠ some .directory ∧
        ∃ data, new names = some (.file data false))

theorem Interrupted.refl (archive : Path) (m : Member) (content : Handout.Content) : Interrupted archive m content content :=
  fun _ => .inl rfl

/-- A member whose name is refused has changed nothing. -/
theorem Interrupted.eq_of_isUnsafe (h : Interrupted archive m old new) (hescape : IsUnsafe m.name) : new = old := by
  obtain ⟨e, he⟩ := memberPath_eq_error_iff.2 hescape
  have hnone : place? archive m = none := by
    unfold place?
    rw [he]
  funext names
  rcases h names with hsame | ⟨place, hplace, -⟩
  · exact hsame
  · cases hnone.symm.trans hplace

/-- Only directories have been added, on the way to a place. -/
structure Widened (s : Session) (base : Path) (k : Location) (place : List String) (t : Session) : Prop where
  sound : t.Sound
  leads : t.LeadsTo base k
  noLink : ∀ rel text, t.files.get? (k ++ rel) ≠ some (.link text)
  changed : ∀ x, t.files.get? x = s.files.get? x ∨ ∃ names, x = k ++ names ∧ names ≠ [] ∧ names <+: place ∧
    s.files.get? x = none ∧ t.files.get? x = some .directory

/-- A directory is made where nothing was, on the way to a place. -/
theorem Widened.put {first : List String} {c : String} (h : Widened s base k place t) (hfirst : first ++ [c] <+: place)
    (hc : IsProper c) (hdir : t.files.get? (k ++ first) = some .directory)
    (hnone : t.files.get? (k ++ first ++ [c]) = none) :
    Widened s base k place { t with files := t.files.put (k ++ first ++ [c]) .directory } := by
  have hne : k ++ first ++ [c] ≠ [] := by simp
  have hkeep : ∀ x node, t.files.get? x = some node → (t.files.put (k ++ first ++ [c]) .directory).get? x = some node := by
    intro x node hx
    rw [Files.get?_put_of_ne hne, hx]
    rintro rfl
    cases hnone.symm.trans hx
  refine ⟨h.sound.put hdir hc fun _ => rfl, h.leads.mono rfl (fun x => hkeep x _) fun x target => hkeep x _, ?_, ?_⟩
  · intro rel text
    dsimp only
    rw [Files.get?_put hne]
    split
    · exact nofun
    · exact h.noLink rel text
  · intro x
    dsimp only
    rw [Files.get?_put hne]
    split
    · rename_i hx
      refine .inr ⟨first ++ [c], by rw [hx, List.append_assoc], by simp, hfirst, ?_, rfl⟩
      rw [hx]
      rcases h.changed (k ++ first ++ [c]) with hsame | ⟨-, -, -, -, hold, -⟩
      · rw [← hsame, hnone]
      · exact hold
    · exact h.changed x

/-- Making a directory, whether it succeeds or not. -/
theorem Holding.widens (h : Holding s base k content u) (hquiet : IsQuiet place) :
    Ensures (fun t => t = u) (Archive.makeDirectory (base.append place)) (fun _ => Widened u base k place)
      fun _ => Widened u base k place := by
  have hway : ∀ t, Widened u base k place t → Way t base k place := fun t ht =>
    ⟨ht.sound, ht.leads, fun first text _ _ => ht.noLink first text⟩
  have hroom : Room (Alone (Widened u base k place)) base k place :=
    Room.alone (fun c hc => (hquiet c hc).1) hway fun t first c ht hfirst hc hdir hnone => ht.put hfirst hc hdir hnone
  refine (makeDirectory_ensures hroom).mono ?_ (fun _ t ht => ht.1) fun _ _ ht => ht
  rintro t rfl
  exact ⟨h.within.sound, h.leads, h.within.noLink, fun _ => .inl rfl⟩

/-- Directories that were added for a member. -/
theorem Holding.interrupted_of_widened {first : List String} (h : Holding s base k content u)
    (hplace : place? archive m = some place) (hfirst : first <+: place) (hv : Widened u base k first v) :
    v.LeadsTo base k ∧ Interrupted archive m content (v.files.content k) := by
  refine ⟨hv.leads, fun names => ?_⟩
  have hold : u.files.get? (k ++ names) = content names := congrFun h.stored names
  rcases hv.changed (k ++ names) with hsame | ⟨names', hnames, hne, hway, hnone, hmade⟩
  · exact .inl (hsame.trans hold)
  · obtain rfl := List.append_cancel_left hnames
    exact .inr ⟨place, hplace, hne, hway.trans hfirst, .inl ⟨hold ▸ hnone, hmade⟩⟩

/-- A file that was written for a member before its data broke off. -/
theorem Holding.interrupted_of_file {init : List String} {c : String} {found : Except StreamFault Content}
    (h : Holding s base k content u) (hv : Holding s base k (withFile content (init ++ [c]) data) v)
    (hplace : place? archive m = some (init ++ [c])) (hkind : m.kind = .file found)
    (hdir : content (init ++ [c]) ≠ some .directory) :
    v.LeadsTo base k ∧ Interrupted archive m content (v.files.content k) := by
  have hroot : content [] = some .directory := by
    rw [← h.stored, ← h.within.directory]
    exact congrArg u.files.get? (List.append_nil k)
  refine ⟨hv.leads, fun names => ?_⟩
  rw [hv.stored]
  by_cases hn : names = init ++ [c]
  · subst hn
    exact .inr ⟨_, hplace, by simp, List.prefix_refl _, .inr ⟨rfl, ⟨found, hkind⟩, hdir, data, withFile_self⟩⟩
  · unfold withFile withDirectory
    rw [if_neg hn, List.dropLast_concat]
    split
    · rename_i hway
      cases hold : content names with
      | some node => exact .inl rfl
      | none =>
        refine .inr ⟨_, hplace, ?_, hway.trans (List.prefix_append _ _), .inl ⟨rfl, rfl⟩⟩
        rintro rfl
        cases hroot.symm.trans hold
    · exact .inl rfl

/-- A member whose file could not be written, or not all of it. -/
theorem Holding.writeMember_error {init : List String} {c : String} {file : Content} {e : Failure}
    (h : Holding s base k content u) (hquiet : IsQuiet (init ++ [c])) (hplace : place? archive m = some (init ++ [c]))
    (hkind : m.kind = .file (.ok file))
    (hrun : (Archive.writeMember archive (base.append (init ++ [c])) file).perform u = (.error e, v)) :
    v.LeadsTo base k ∧ Interrupted archive m content (v.files.content k) := by
  have hinit : IsQuiet init := fun c' hc' => hquiet c' (List.mem_append_left _ hc')
  have hway : init <+: init ++ [c] := List.prefix_append _ _
  unfold Archive.writeMember at hrun
  rw [Path.parent_append_concat] at hrun
  rcases error_of_perform_bind hrun with hmake | ⟨_, w, hmake, hrest⟩
  · exact h.interrupted_of_widened hplace hway ((h.widens hinit).ends rfl hmake)
  · obtain ⟨e', hrest⟩ := error_of_perform_during hrest
    rcases error_of_perform_bind hrest with hwrite | ⟨_, x, hwrite, hfault⟩
    · rcases perform_writeFile_cases (base.append (init ++ [c])).written file.data w with ⟨e'', hsame⟩ | ⟨_, _, _, _, _, _, hok⟩
      · obtain rfl := (Prod.mk.inj (hsame.symm.trans hwrite)).2
        exact h.interrupted_of_widened hplace hway ((h.widens hinit).ends rfl hmake)
      · cases hok.symm.trans hwrite
    · obtain ⟨hx, hdir⟩ := h.writeFile hquiet hmake hwrite
      obtain rfl : x = v := by
        split at hfault
        · exact (Prod.mk.inj hfault).2
        · cases hfault
      exact h.interrupted_of_file hx hplace hkind hdir

/-- A member that could not be put to its place. -/
theorem Holding.putMember_error {e : Failure} (h : Holding s base k content u)
    (hrun : (Archive.putMember archive base m).perform u = (.error e, v)) :
    v.LeadsTo base k ∧ Interrupted archive m content (v.files.content k) := by
  have hsame : v = u → v.LeadsTo base k ∧ Interrupted archive m content (v.files.content k) := by
    rintro rfl
    exact ⟨h.leads, h.stored ▸ .refl archive m _⟩
  rcases putMember_cases archive base m u with ⟨e', -, hrefused⟩ | ⟨answer, -, -, hskipped⟩ |
    ⟨path, -, hplace, hne, hquiet, hextract⟩
  · exact hsame (Prod.mk.inj (hrefused.symm.trans hrun)).2.symm
  · cases hskipped.symm.trans hrun
  rw [hextract] at hrun
  unfold Archive.extractMember at hrun
  cases hencrypted : m.encrypted with
  | true =>
    rw [hencrypted] at hrun
    exact hsame (Prod.mk.inj hrun).2.symm
  | false =>
    cases hkind : m.kind with
    | directory =>
      rw [hencrypted, hkind] at hrun
      exact h.interrupted_of_widened hplace (List.prefix_refl _) ((h.widens hquiet).ends rfl hrun)
    | file found =>
      rw [hencrypted, hkind] at hrun
      cases found with
      | ok file =>
        obtain ⟨init, c, hinit⟩ : ∃ init c, path.parts = init ++ [c] := ⟨_, _, (List.dropLast_concat_getLast hne).symm⟩
        rw [hinit] at hrun hplace hquiet
        exact h.writeMember_error hquiet hplace hkind hrun
      | error fault => exact hsame (Prod.mk.inj hrun).2.symm
    | link text =>
      rw [hencrypted, hkind] at hrun
      cases hrun
    | special =>
      rw [hencrypted, hkind] at hrun
      cases hrun

/-! ### All members -/

/-- How an extraction may be cut short: at a member, after all the members before it have been extracted. -/
def CutShort (archive base : Path) (k : Location) (made : List String → Prop) (members : List Member) (t : Session) :
    Prop :=
  t.LeadsTo base k ∧ ∃ done m rest content, members = done ++ m :: rest ∧ Extracted archive made done content ∧
    Interrupted archive m content (t.files.content k)

/-- All members are extracted to a directory, or the extraction is cut short at one of them. -/
theorem putMembers_ensures (h : Holding s base k content u) (hstart : Extracted archive made [] content)
    (members : List Member) :
    Ensures (fun t => t = u) (members.forM (putMember archive base))
      (fun _ t => t.LeadsTo base k ∧ Extracted archive made members (t.files.content k))
      fun _ t => CutShort archive base k made members t := by
  let Reached : List Member → Session → Prop := fun done t =>
    Holding s base k (outcome archive content done) t ∧ Extracted archive made done (outcome archive content done)
  have hall : Ensures (Reached []) (members.forM (putMember archive base)) (fun _ => Reached members)
      fun _ t => CutShort archive base k made members t := by
    refine Ensures.forM Reached fun done m rest hsplit t ht => ?_
    have hholding := ht.1
    have hextracted := ht.2
    rcases hrun : (putMember archive base m).perform t with ⟨r, v⟩
    cases r with
    | error e =>
      obtain ⟨hleads, hinterrupted⟩ := hholding.putMember_error hrun
      exact ⟨hleads, done, m, rest, _, hsplit, hextracted, hinterrupted⟩
    | ok _ =>
      obtain ⟨hv, ⟨answer, hanswer⟩, hfits⟩ := hholding.putMember hrun
      have hsafe : ¬ IsUnsafe m.name := by
        intro hescape
        obtain ⟨e, he⟩ := memberPath_eq_error_iff.2 hescape
        cases hanswer.symm.trans he
      refine ⟨?_, ?_⟩ <;> rw [outcome_concat]
      · exact hv
      · exact hextracted.concat hsafe hfits
  refine hall.mono ?_ (fun _ t ht => ⟨ht.1.leads, ht.1.stored ▸ ht.2⟩) fun _ _ ht => ht
  rintro t rfl
  exact ⟨h, hstart⟩

/-- After all members there may be the fault of the listing. -/
theorem extractListing_ensures (h : Holding s base k content u) (hstart : Extracted archive made [] content)
    (l : Listing) :
    Ensures (fun t => t = u) (extractListing archive base l)
      (fun _ t => t.LeadsTo base k ∧ Extracted archive made l.members (t.files.content k))
      fun _ t => CutShort archive base k made l.members t ∨
        t.LeadsTo base k ∧ Extracted archive made l.members (t.files.content k) := by
  rw [extractListing_eq]
  refine ((putMembers_ensures h hstart l.members).mono (fun _ ht => ht) (fun _ _ ht => ht) fun _ _ ht => .inl ht).bind
    fun _ => ?_
  split
  · exact Ensures.throw fun _ ht => .inr ht
  · exact Ensures.pure fun _ ht => ht

/-! ### The whole extraction -/

/-- Nothing is stored below the place for which a path stands. -/
def HasNothing (s : Session) (p : Path) : Prop :=
  ∀ d, s.resolve? p = .ok (Location.path d) → ∀ rel, rel ≠ [] → s.files.get? (d ++ rel) = none

/-- The directories at a target and below it that are made with the target: itself, and if it is written with `..`, the
places for which initial parts of it stand. -/
def IsMade (s : Session) (target : Path) (k : Location) (names : List String) : Prop :=
  names = [] ∨ ".." ∈ target.parts ∧ ∃ n ≤ target.parts.length,
    s.resolve? (pathPart target n) = .ok (Location.path (k ++ names))

/-- What is at a target that had nothing and has been made. -/
theorem HasNothing.content_cases {target : Path} (hnothing : HasNothing s target) (h : Paved s target t)
    (hz : target.hasZero = false) (hleads : t.LeadsTo target k) (names : List String) :
    t.files.content k names = some .directory ∧ IsMade s target k names ∨
      t.files.content k names = none ∧ ¬ IsMade s target k names := by
  have hd := h.resolve?_eq hz hleads
  unfold Files.content
  by_cases hnil : names = []
  · refine .inl ⟨?_, .inl hnil⟩
    rw [hnil, List.append_nil]
    exact hleads.directory h.sound
  rcases h.changed (k ++ names) with hsame | hnew
  · have hnone : t.files.get? (k ++ names) = none := hsame.trans (hnothing k hd names hnil)
    refine .inr ⟨hnone, ?_⟩
    rintro (hempty | ⟨-, n, -, hpart⟩)
    · exact hnil hempty
    · obtain ⟨x, hx, hx'⟩ := h.resolve?_part hleads n
      cases hpart.symm.trans hx'
      cases hnone.symm.trans hx
  · exact .inl ⟨hnew.made, .inr ⟨up_of_below hnew hd hnil rfl, hnew.part⟩⟩

/-- An extraction to a target with nothing: the target could not be made, or the members go to a directory that holds
no more than was made with the target. -/
theorem extract_cases {target : Path} {format : Format} {l : Listing} (hs : s.Sound) (hread : target.IsRead)
    (hnothing : HasNothing s target) (hdata : s.content? archive.written = .ok data)
    (hlisting : read? data = .ok (some (format, l))) :
    (∃ e t, (Archive.makeDirectory target).perform s = (.error e, t) ∧ (extract archive target).perform s = (.error e, t)) ∨
    ∃ k u content, Holding u target k content u ∧ Extracted archive (IsMade s target k) [] content ∧
      (extract archive target).perform s = (extractListing archive target l).perform u := by
  unfold extract
  rcases hmake : (Archive.makeDirectory target).perform s with ⟨r, u⟩
  cases r with
  | error e => exact .inl ⟨e, u, rfl, perform_bind_error hmake _⟩
  | ok _ =>
    obtain ⟨hpaved, hz, k, hleads⟩ := (makeDirectories_paves hread).ends (.refl hs) (ok_of_perform_during hmake)
    have hmade := hnothing.content_cases hpaved hz hleads
    refine .inr ⟨k, u, _, .start hpaved.sound hleads rfl fun names => ?_, extracted_nil hmade, ?_⟩
    · exact (hmade names).symm.imp And.left And.left
    have hfile : (during .read archive (readFile archive)).perform u = (.ok data, u) := by
      unfold readFile
      rw [perform_during, perform_query, hpaved.content? hdata]
    rw [perform_bind_ok hmake, perform_bind_ok hfile, perform_bind, perform_query, hlisting]

/-- An extraction to a target with nothing that succeeds leaves what the members say as a whole, and what was made with
the target.  With an unsafe name among the members it fails, and then what has been extracted are the members before
the one at which it failed. -/
theorem extract_members {format : Format} {l : Listing} (hs : s.Sound) (archive : Path) (text : String)
    (hnothing : HasNothing s (Path.ofString text)) (hdata : s.content? archive.written = .ok data)
    (hlisting : read? data = .ok (some (format, l))) :
    (∀ t, (extract archive (.ofString text)).perform s = (.ok (), t) → ∃ k, t.LeadsTo (.ofString text) k ∧
      Extracted archive (IsMade s (.ofString text) k) l.members (t.files.content k)) ∧
    ((∃ m ∈ l.members, IsUnsafe m.name) → ∃ e t, (extract archive (.ofString text)).perform s = (.error e, t) ∧
      ((Archive.makeDirectory (.ofString text)).perform s = (.error e, t) ∨
        ∃ k, CutShort archive (.ofString text) k (IsMade s (.ofString text) k) l.members t)) := by
  rcases extract_cases hs (fun c => Path.isName_of_mem_ofString) hnothing hdata hlisting with
    ⟨e, t, hmake, hrun⟩ | ⟨k, u, content, hholding, hstart, hrun⟩
  · rw [hrun]
    exact ⟨nofun, fun _ => ⟨e, t, rfl, .inl hmake⟩⟩
  rw [hrun]
  rcases hlist : (extractListing archive (.ofString text) l).perform u with ⟨r, t⟩
  have hends := (extractListing_ensures hholding hstart l).ends rfl hlist
  refine ⟨?_, ?_⟩
  · rintro _ ⟨⟩
    exact ⟨k, hends⟩
  · rintro ⟨m, hm, hescape⟩
    cases r with
    | ok _ => exact absurd hescape (hends.2.safe m hm)
    | error e =>
      rcases hends with hcut | ⟨-, hall⟩
      · exact ⟨e, t, rfl, .inr ⟨k, hcut⟩⟩
      · exact absurd hescape (hall.safe m hm)

/-- An archive with an empty file `f` and an empty file that is named `..`. -/
def sampleEscape : Bytes :=
  [80, 75, 3, 4, 20, 0, 0, 0, 0, 0, 0, 0, 33, 0, 0, 0, 0, 0, 0, 0, 0, 0, 0, 0, 0, 0, 1, 0, 0, 0, 102, 80, 75, 3, 4, 20,
   0, 0, 0, 0, 0, 0, 0, 33, 0, 0, 0, 0, 0, 0, 0, 0, 0, 0, 0, 0, 0, 2, 0, 0, 0, 46, 46, 80, 75, 1, 2, 20, 0, 20, 0, 0, 0,
   0, 0, 0, 0, 33, 0, 0, 0, 0, 0, 0, 0, 0, 0, 0, 0, 0, 0, 1, 0, 0, 0, 0, 0, 0, 0, 0, 0, 0, 0, 128, 1, 0, 0, 0, 0, 102,
   80, 75, 1, 2, 20, 0, 20, 0, 0, 0, 0, 0, 0, 0, 33, 0, 0, 0, 0, 0, 0, 0, 0, 0, 0, 0, 0, 0, 2, 0, 0, 0, 0, 0, 0, 0, 0, 0,
   0, 0, 128, 1, 31, 0, 0, 0, 46, 46, 80, 75, 5, 6, 0, 0, 0, 0, 2, 0, 2, 0, 95, 0, 0, 0, 63, 0, 0, 0, 0, 0]

/-- A session in a directory `w`, which holds the archive `x.zip`. -/
def sampleRefusal : Session where
  files := ⟨[(["w"], .directory), (["w", "x.zip"], .file sampleEscape false)]⟩
  workingDir := ["w"]
  scratch := ["t"]

/-- A member that is an empty file. -/
def sampleMember (name : String) : Member := ⟨name, .file (.ok ⟨[], none⟩), false, false, some 0⟩

/-- One archive is extracted into an empty directory, the other one into a missing directory. -/
theorem sampleExtraction_members :
    (∃ k t, (extract (.ofString "x.zip") (.ofString "a")).perform sampleExtraction = (.ok (), t) ∧
      t.LeadsTo (.ofString "a") k ∧ Extracted (.ofString "x.zip") (IsMade sampleExtraction (.ofString "a") k)
        [sampleMember "f"] (t.files.content k)) ∧
    ∃ k e t, (extract (.ofString "x.zip") (.ofString "b")).perform sampleRefusal = (.error e, t) ∧
      CutShort (.ofString "x.zip") (.ofString "b") k (IsMade sampleRefusal (.ofString "b") k)
        [sampleMember "f", sampleMember ".."] t ∧
      t.files.get? ["w", "b", "f"] = some (.file [] false) := by
  refine ⟨?_, ?_⟩
  · have hs : sampleExtraction.Sound := ⟨Files.wellFormed_of_entries (by decide +kernel), by decide +kernel⟩
    have hnothing : HasNothing sampleExtraction (.ofString "a") := by
      intro d hd rel hne
      cases (show sampleExtraction.resolve? (.ofString "a") = .ok (Location.path ["w", "a"]) by rfl).symm.trans hd
      exact Files.get?_below_of_entries (by decide +kernel) hne
    have hlisting : read? sampleArchive = .ok (some (.zip, ⟨[sampleMember "f"], none⟩)) := by rfl
    rcases hrun : (extract (.ofString "x.zip") (.ofString "a")).perform sampleExtraction with ⟨r, t⟩
    have hok : ((extract (.ofString "x.zip") (.ofString "a")).perform sampleExtraction).1.toOption = some () := by
      decide +kernel
    rw [hrun] at hok
    cases r with
    | error e => cases hok
    | ok _ =>
      obtain ⟨k, hextracted⟩ := (extract_members hs (.ofString "x.zip") "a" hnothing (by rfl) hlisting).1 t hrun
      exact ⟨k, t, rfl, hextracted⟩
  · have hs : sampleRefusal.Sound := ⟨Files.wellFormed_of_entries (by decide +kernel), by decide +kernel⟩
    have hnothing : HasNothing sampleRefusal (.ofString "b") := by
      intro d hd rel hne
      cases (show sampleRefusal.resolve? (.ofString "b") = .ok (Location.path ["w", "b"]) by rfl).symm.trans hd
      exact Files.get?_below_of_entries (by decide +kernel) hne
    have hlisting : read? sampleEscape = .ok (some (.zip, ⟨[sampleMember "f", sampleMember ".."], none⟩)) := by
      set_option maxRecDepth 4000 in rfl
    obtain ⟨e, t, hrun, hend⟩ := (extract_members hs (.ofString "x.zip") "b" hnothing (by rfl) hlisting).2
      ⟨sampleMember "..", by simp, by decide +kernel⟩
    have hfile : ((extract (.ofString "x.zip") (.ofString "b")).perform sampleRefusal).2.files.get? ["w", "b", "f"] =
        some (.file [] false) := by decide +kernel
    have hmake : ((Archive.makeDirectory (.ofString "b")).perform sampleRefusal).1.toOption = some () := by decide +kernel
    rw [hrun] at hfile
    rcases hend with hfailed | ⟨k, hcut⟩
    · rw [hfailed] at hmake
      cases hmake
    · exact ⟨k, e, t, hrun, hcut, hfile⟩

/-- A missing directory on the way to a target with `..` is made although no member asks for it. -/
theorem sampleExtraction_parent :
    let target := Path.ofString "a/n/.."
    let o := (extract (.ofString "x.zip") target).perform sampleExtraction
    sampleExtraction.Sound ∧ HasNothing sampleExtraction target ∧
      sampleExtraction.content? (Path.ofString "x.zip").written = .ok sampleArchive ∧
      read? sampleArchive = .ok (some (.zip, ⟨[sampleMember "f"], none⟩)) ∧
      o.1.toOption = some () ∧ o.2.LeadsTo target ["w", "a"] ∧
      ¬ Extracted (.ofString "x.zip") (fun names => names = []) [sampleMember "f"] (o.2.files.content ["w", "a"]) := by
  refine ⟨⟨Files.wellFormed_of_entries (by decide +kernel), by decide +kernel⟩, fun d hd rel hne => ?_, by rfl, by rfl,
    by decide +kernel, leadsTo_iff_find.2 (by rfl), fun hextracted => ?_⟩
  · cases (show sampleExtraction.resolve? (.ofString "a/n/..") = .ok (Location.path ["w", "a"]) by rfl).symm.trans hd
    exact Files.get?_below_of_entries (by decide +kernel) hne
  · rcases (hextracted.directory_iff ["n"]).1 (by rfl) with hnil | ⟨m, hm, place, hplace, hway, -⟩
    · cases hnil
    · rw [List.mem_singleton.1 hm] at hplace
      obtain rfl : ["f"] = place := Option.some.inj ((show _ = some ["f"] by rfl).symm.trans hplace)
      exact absurd hway (by decide +kernel)

end Handout.Archive
