import Handout.Proofs.Archive.Create
import Handout.Proofs.Archive.Extract
import Handout.Proofs.Files.Refusal
import Handout.Proofs.Project.Recognition

/-!
# How work on archives fails

An archive in which reading meets no odd fault (`isOrderly`) is extracted, or the failure is reported
(`extract_reported`).  The project in it is found, or its absence is reported (`findProject_reported`).  An archive of a
directory is created, or the failure is reported, if every entry can be named (`create_reported`).
-/

namespace Handout

namespace Archive

open Handout.Action Session

variable {P : Session → Prop} {s t u : Session} {archive base target output p : Path} {d k top : Location}
  {names rel : List String} {ok : List String → Prop} {format : Format} {topName : Option Path} {m : Member}

/-! ### What is read without odd faults -/

/-- Whether meeting a fault is reported. -/
def StreamFault.isReported : StreamFault → Bool
  | cutShort | malformed => true
  | undecodable | system _ => false

/-- Whether extracting a member fails, if at all, with what is reported. -/
def Member.isOrderly (m : Member) : Bool :=
  !m.name.toList.contains (Char.ofNat 0) && match m.kind with
    | .file (.ok content) => content.fault != some .undecodable
    | .file (.error fault) => fault.isReported
    | _ => true

/-- Whether extracting a listing fails, if at all, with what is reported. -/
def Listing.isOrderly (l : Listing) : Bool := l.members.all Member.isOrderly && l.fault.all StreamFault.isReported

/-- Whether extracting an archive with some data fails, if at all, with what is reported. -/
def isOrderly (data : Bytes) : Bool :=
  match read? data with
  | .ok (some (_, l)) => l.isOrderly
  | .ok none => true
  | .error _ => false

theorem StreamFault.isReported_failure {fault : StreamFault} (h : fault.isReported = true) (archive : Path) :
    (fault.failure archive).isReported = true := by
  cases fault with
  | cutShort | malformed => rfl
  | undecodable | system => cases h

/-! ### Extracting -/

private theorem makeDirectory_reported (hz : target.hasZero = false) :
    Ensures (fun _ => True) (Archive.makeDirectory target) (fun _ _ => True) fun e _ => e.isReported = true :=
  (onlyRefused_makeDirectories hz).during _ _

private theorem writeMember_reported (hz : target.hasZero = false) {content : Content}
    (hfault : content.fault ≠ some .undecodable) :
    Ensures (fun _ => True) (writeMember archive target content) (fun _ _ => True) fun e _ => e.isReported = true := by
  refine (makeDirectory_reported (Path.hasZero_of_subset hz (List.dropLast_subset _))).bind fun _ => Ensures.during_reported ?_ _ _
  refine Ensures.bind (M := fun _ _ => True)
    ((onlyRefused_writeFile (w := target.written) hz _).mono (fun _ _ => trivial) (fun _ _ _ => trivial) fun _ _ => .inl) fun _ => ?_
  split
  · rename_i fault hsome
    refine Ensures.throw fun _ _ => ?_
    cases fault with
    | cutShort | malformed => exact .inr rfl
    | undecodable => exact absurd hsome hfault
    | system e => exact .inl trivial
  · exact Ensures.pure fun _ _ => trivial

private theorem extractMember_reported (hz : target.hasZero = false) (hm : m.isOrderly = true) :
    Ensures (fun _ => True) (extractMember archive target m) (fun _ _ => True) fun e _ => e.isReported = true := by
  have hkind := (Bool.and_eq_true_iff.1 hm).2
  unfold extractMember
  dsimp only
  split
  · exact Ensures.throw_bind fun _ _ => rfl
  split
  · exact makeDirectory_reported hz
  · rename_i content hcontent
    rw [hcontent] at hkind
    exact writeMember_reported hz (by simpa using hkind)
  · rename_i fault hfault
    rw [hfault] at hkind
    exact Ensures.throw fun _ _ => fault.isReported_failure hkind archive
  · exact Ensures.note fun _ _ _ => trivial
  · exact Ensures.note fun _ _ _ => trivial

/-- The path of a member has no zero character if its name has none. -/
private theorem hasZero_memberPath {name : String} {path : Path} (h : memberPath archive name = .ok (some path))
    (hname : Char.ofNat 0 ∉ name.toList) : path.hasZero = false := by
  unfold memberPath at h
  dsimp only at h
  split at h
  · cases h
  split at h
  · cases h
  cases h
  refine Path.hasZero_eq_false.2 fun c hc hzero => ?_
  have hmem := Path.mem_ofString hc hzero
  rw [String.toList_ofList] at hmem
  obtain ⟨x, hx, hzero⟩ := List.mem_map.1 hmem
  split at hzero
  · exact absurd hzero (by decide)
  · exact hname (hzero ▸ hx)

private theorem extractListing_reported (hz : target.hasZero = false) {l : Listing} (hl : l.isOrderly = true) :
    Ensures (fun _ => True) (extractListing archive target l) (fun _ _ => True) fun e _ => e.isReported = true := by
  obtain ⟨hmembers, hfault⟩ := Bool.and_eq_true_iff.1 hl
  unfold extractListing
  refine Ensures.bind (M := fun _ _ => True) (Ensures.forM (fun _ _ => True) fun done m rest hall => ?_) fun _ => ?_
  · have hm : m.isOrderly = true := List.all_eq_true.1 hmembers m (by rw [hall]; simp)
    have hname : Char.ofNat 0 ∉ m.name.toList := by simpa using (Bool.and_eq_true_iff.1 hm).1
    refine Ensures.bind (M := fun path _ => memberPath archive m.name = .ok path) (Ensures.query fun s _ => ?_) fun path => ?_
    · cases hpath : memberPath archive m.name with
      | ok path => exact rfl
      | error e =>
        unfold memberPath at hpath
        dsimp only at hpath
        split at hpath <;> cases hpath
        rfl
    · split
      · exact Ensures.pure fun _ _ => trivial
      · rename_i path
        split
        · exact Ensures.pure fun _ _ => trivial
        · refine Ensures.of_each fun s hpath => ?_
          obtain ⟨hrelative, -, -⟩ := memberPath_named hpath
          have hzero : (target.join path).hasZero = false := by
            rw [Path.join_eq_append _ hrelative, Path.hasZero_append, hz]
            exact hasZero_memberPath hpath hname
          exact (extractMember_reported hzero hm).mono (fun _ _ => trivial) (fun _ _ _ => trivial) fun _ _ he => he
  · split
    · rename_i fault hsome
      rw [hsome] at hfault
      exact Ensures.throw fun _ _ => fault.isReported_failure hfault archive
    · exact Ensures.pure fun _ _ => trivial

/-- An orderly archive is extracted into a region, or the failure is reported. -/
theorem extract_reported (h : Unpacks (Alone P) base d ok) (hok : Opens ok names) (hp : ∀ c ∈ names, IsName c)
    (hz : (base.append names).hasZero = false) (harchive : archive.hasZero = false)
    (hdata : ∀ s data, P s → s.content? archive.written = .ok data → isOrderly data = true) :
    Ensures P (extract archive (base.append names)) (fun _ s => P s ∧ s.files.get? (d ++ names) = some .directory)
      fun e _ => e.isReported = true := by
  refine (extract_ensures archive h hok hp).failing ?_
  have hmake : Ensures P (Archive.makeDirectory (base.append names)) (fun _ => P) fun e _ => e.isReported = true :=
    ((makeDirectory_ensures (h.room hp fun first => hok.upTo)).and
      ((makeDirectory_reported hz).mono (fun _ _ => trivial) (fun _ _ hs => hs) fun _ _ he => he)).mono (fun _ hs => hs)
      (fun _ _ hs => hs.1.1) fun _ _ he => he.2
  refine hmake.bind fun _ => (readFile_reported harchive hdata).bind fun data => Ensures.of_each fun s hdata => ?_
  have hdata := hdata.2
  refine Ensures.bind (M := fun found _ => read? data = .ok found) (Ensures.query fun _ _ => ?_) fun found => ?_
  · cases hfound : read? data with
    | ok found => exact rfl
    | error e =>
      unfold isOrderly at hdata
      rw [hfound] at hdata
      cases hdata
  · split
    · refine Ensures.of_each fun s hfound => ?_
      unfold isOrderly at hdata
      rw [hfound] at hdata
      exact (extractListing_reported hz hdata).mono (fun _ _ => trivial) (fun _ _ _ => trivial) fun _ _ he => he
    · exact Ensures.throw fun _ _ => rfl

/-! ### Finding the project -/

/-- The project in a directory is found, or its absence is reported. -/
theorem findProject_reported (archive : Path) (h : s.Listable top) :
    Ensures (fun t => t = s) (findProject archive top.path) (fun root t => t = s ∧ IsDirectoryIn s.files top root)
      fun e _ => e.isReported = true := by
  refine ((answered_findProject? h).mono (fun _ ht => ht) (fun _ _ ht => ht) fun _ _ he => he.elim).bind fun found => ?_
  cases found with
  | none => exact Ensures.throw fun _ _ => rfl
  | some root => exact Ensures.pure fun _ ht => ⟨ht.1, ht.2 root rfl⟩

/-! ### Creating an archive -/

/-- What lies below a top-level directory has a name in a zip archive. -/
private theorem zipName?_of_ne_nil {name : Path} (hne : rel ≠ []) (hp : ∀ c ∈ rel, IsPlain c) (hparts : ∃ first, name.parts = first ++ rel) :
    zipName? name ≠ none := by
  obtain ⟨first, hparts⟩ := hparts
  obtain ⟨init, c, rfl⟩ := (List.eq_nil_or_concat' rel).resolve_left hne
  have hlast : name.normal.parts ≠ [] := by
    unfold Path.normal
    have hpush : ∀ acc, Path.pushPart name.isAbsolute acc c = c :: acc := fun acc => if_neg (hp c (by simp)).2
    rw [hparts, ← List.append_assoc, List.foldl_concat, hpush]
    simp
  unfold zipName?
  dsimp only
  rw [if_neg (by simpa using hlast)]
  exact Option.some_ne_none _

theorem zipName?_nameBelow (htop : ∀ name, topName = some name → zipName? name ≠ none) (hp : ∀ c ∈ rel, IsPlain c)
    (hrel : rel = [] → topName.isSome) : zipName? (nameBelow topName rel) ≠ none := by
  by_cases hne : rel = []
  · obtain ⟨name, hname⟩ := Option.isSome_iff_exists.1 (hrel hne)
    subst hne hname
    rw [nameBelow_nil]
    exact htop name rfl
  · refine zipName?_of_ne_nil hne hp ?_
    cases topName with
    | none => exact ⟨[], rfl⟩
    | some name => exact ⟨name.parts, rfl⟩

/-- Entries that have names are refused at most. -/
private theorem isSystem_of_entriesAt {dir : Location} {draft source : Path} {content : Handout.Content} {e : Failure}
    (hname : format = .zip → zipName? (nameBelow topName rel) ≠ none)
    (h : entriesAt format dir draft source topName content rel = .error e) : e.IsSystem := by
  unfold entriesAt at h
  split at h
  · cases h
  split at h
  · cases h
    trivial
  · cases format with
    | zip =>
      unfold entryOf at h
      dsimp only at h
      split at h
      · rename_i hnone
        exact absurd hnone (hname rfl)
      · cases h
    | tar => cases h

private theorem hasZero_addSuffix (hz : output.hasZero = false) {suffix : String} (hs : Char.ofNat 0 ∉ suffix.toList) :
    (output.addSuffix suffix).hasZero = false := by
  have hread : ∀ c ∈ (Path.ofString (output.name ++ suffix)).parts, Char.ofNat 0 ∉ c.toList := by
    intro c hc hzero
    have hmem := Path.mem_ofString hc hzero
    rw [String.toList_append, List.mem_append] at hmem
    exact hmem.elim (Path.noZero_name hz) hs
  unfold Path.addSuffix
  cases habsolute : (Path.ofString (output.name ++ suffix)).isAbsolute with
  | true =>
    unfold Path.join
    rw [if_pos habsolute]
    exact Path.hasZero_eq_false.2 hread
  | false =>
    rw [Path.join_eq_append _ habsolute, Path.hasZero_append, Path.hasZero_of_subset hz (List.dropLast_subset _)]
    exact Path.hasZero_eq_false.2 hread

/-- The entries of a directory that can all be named are refused at most, also when the draft has been begun. -/
private theorem entries_refused (hst : Twins u k s s) (h : s.Listable d) (hk : k <+: d) {draft : Path}
    (hdraft : Avoids u draft k) (data : Bytes)
    (htop : format = .zip → ∀ name, topName = some name → zipName? name ≠ none) :
    Ensures (fun t => (writeFile draft.written data).perform s = (.ok (), t))
      (entries format draft d.path topName ((s.files.listing d).map d.path.append)) (fun _ _ => True)
      fun e _ => e.IsSystem := by
  intro t hw
  have hlisting : ∀ rel ∈ s.files.listing d, rel ≠ [] ∧ s.files.get? (d ++ rel) ≠ none := fun rel =>
    (Files.mem_listing h.sound.files).1
  have hentries := perform_entries_drafting topName format h hst hk hdraft (fun rel hrel => (hlisting rel hrel).2) hw
  rw [show draft.written.path = draft from rfl] at hentries
  rw [show d.path.append = fun rel => Location.path (d ++ rel) from rfl, hentries]
  cases hresult : (withTop topName (s.files.listing d)).mapM
    (entriesAt format s.workingDir draft d.path topName (s.files.content d)) with
  | ok ess => exact trivial
  | error e =>
    obtain ⟨rel, hrel, he⟩ := exists_of_mapM_error hresult
    refine isSystem_of_entriesAt (fun hzip => ?_) he
    refine zipName?_nameBelow (htop hzip) (fun c hc => ?_) fun hnil => ?_
    · rcases List.mem_cons.1 (mem_of_mem_withTop hrel) with rfl | hrel
      · cases hc
      · exact (proper_of_exists h.sound (hlisting rel hrel).2 (List.mem_append_right d hc)).plain
    · by_contra hnone
      unfold withTop at hrel
      rw [if_neg hnone] at hrel
      exact (hlisting rel hrel).1 hnil

/-- Writing the draft and renaming it is refused at most. -/
private theorem draft_refused (hst : Twins u k s s) (h : s.Listable d) (hk : k <+: d) {draft : Path}
    (hdraft : Avoids u draft k) (hzero : draft.hasZero = false) (hz : output.hasZero = false)
    (htop : format = .zip → ∀ name, topName = some name → zipName? name ≠ none) :
    Ensures (fun t => t = s)
      (do
        writeFile draft.written []
        (do
          let es ← entries format draft d.path topName ((s.files.listing d).map d.path.append)
          writeFile draft.written (encode format es))
        rename draft.written output.written) (fun _ _ => True) fun e _ => e.IsSystem := by
  have hwrite : ∀ data, OnlyRefused (writeFile draft.written data) := fun data =>
    onlyRefused_writeFile (w := draft.written) hzero data
  have hentries := entries_refused hst h hk hdraft [] htop
  refine ((hwrite []).perform trivial).bind fun _ => ?_
  exact (hentries.bind fun _ => hwrite _).bind fun _ => onlyRefused_rename hzero hz

/-- The archive of a directory in which every entry can be named is created, or the failure is reported. -/
theorem create_reported (hdraft : Avoids u (output.addSuffix ".tmp") k) (hz : output.hasZero = false)
    (htop : format = .zip → ∀ name, topName = some name → zipName? name ≠ none) :
    Ensures (fun s => SameDirectory u k d s s) (create format d.path output topName none) (fun _ _ => True)
      fun e _ => e.isReported = true := by
  intro s hst
  have hzero : (output.addSuffix ".tmp").hasZero = false := hasZero_addSuffix hz (by decide)
  have hnoted : ∀ record, Twins u k { s with log := s.log ++ [record] } { s with log := s.log ++ [record] } :=
    fun record => ⟨hst.left, hst.right, hst.shape, hst.outside⟩
  unfold create overwriteAtomic
  dsimp only
  rw [perform_bind_ok (perform_descendants hst.left_listable.listed), perform_bind_ok (perform_note ..)]
  generalize output.addSuffix ".tmp" = draft at hdraft hzero ⊢
  have hbody := fun record =>
    draft_refused (hnoted record) (hst.left_listable.log record) hst.below hdraft hzero hz htop
  refine Ensures.during_reported (Ensures.onFailure (hbody _) fun e t he => ?_) _ _ _ rfl
  exact (onlyRefused_removeDraft (w := draft.written) hzero t trivial).mono (fun _ _ _ => .inl he) fun _ _ => .inl

end Archive

end Handout
