import Handout.Archive.Extract
import Handout.Archive.Search
import Handout.Proofs.Files.Change
import Handout.Proofs.Path
import Handout.Proofs.Project.Ecosystem

/-!
# Extraction stays in its directory

The path of a member has proper names only (`memberPath_named`).  So an extraction into a region keeps whatever is
kept by making directories and writing files in that region (`extract_ensures`).  The project that is found
afterwards lies in the region (`findProject_ensures`).
-/

namespace Handout.Archive

open Handout.Action

variable {P : Session → Prop} {R : Session → Session → Prop} {base archive : Path} {d : Location} {names : List String} {ok : List String → Prop}

/-- The path of a member is made of names. -/
theorem memberPath_named {name : String} {path : Path} (h : memberPath archive name = .ok (some path)) :
    path.isAbsolute = false ∧ path.parts ≠ [] ∧ ∀ c ∈ path.parts, IsName c := by
  unfold memberPath at h
  dsimp only at h
  generalize String.ofList (name.toList.map fun c => if c = '\\' then '/' else c) = text at h
  have hmem : ∀ c ∈ (Path.ofString text).parts, c ≠ ".." → IsName c := fun c => Path.isName_of_mem_ofString
  generalize Path.ofString text = found at h hmem
  split at h
  · cases h
  rename_i hsafe
  simp only [Bool.or_eq_true, not_or, Bool.not_eq_true] at hsafe
  split at h
  · cases h
  rename_i hne
  cases h
  refine ⟨hsafe.1, by simpa using hne, fun c hc => hmem c hc ?_⟩
  rintro rfl
  have := hsafe.2
  simp [hc] at this

/-! ### Extracting members -/

theorem makeDirectory_relates (h : Room R base d names) :
    Relates R (Archive.makeDirectory (base.append names)) (Archive.makeDirectory (base.append names))
      (fun _ => R) (Same fun _ => R) :=
  ((makeDirectories_relates h).mono (fun _ _ hst => hst) (fun _ _ _ hst => hst.1) fun _ _ _ _ hst => hst).during_same _ _

theorem makeDirectory_ensures (h : Room (Alone P) base d names) :
    Ensures P (Archive.makeDirectory (base.append names))
      (fun _ s => P s ∧ s.files.get? (d ++ names) = some .directory) fun _ => P :=
  (makeDirectories_ensures h).during _ _

/-- In both sessions, the same may happen to a region by making directories, writing files and adding to the log. -/
structure Unpacks (R : Session → Session → Prop) (base : Path) (d : Location) (ok : List String → Prop) : Prop
    extends Region R base d ok where
  log : ∀ s t record, R s t → R { s with log := s.log ++ [record] } { t with log := t.log ++ [record] }

/-- What changes in a region keep in one session. -/
theorem Unpacks.alone
    (way : ∀ s, P s → s.Sound ∧ s.LeadsTo base d ∧ ∀ rel target, s.files.get? (d ++ rel) ≠ some (.link target))
    (make : ∀ s rel c, P s → ok (rel ++ [c]) → IsProper c → s.files.get? (d ++ rel) = some .directory →
      s.files.get? (d ++ rel ++ [c]) = none → P { s with files := s.files.put (d ++ rel ++ [c]) .directory })
    (write : ∀ s rel c data flag, P s → ok (rel ++ [c]) → IsProper c → s.files.get? (d ++ rel) = some .directory →
      Flagged (s.files.get? (d ++ rel ++ [c])) flag →
      P { s with files := s.files.put (d ++ rel ++ [c]) (.file data flag) })
    (log : ∀ s record, P s → P { s with log := s.log ++ [record] }) : Unpacks (Alone P) base d ok := by
  have hway : ∀ s, P s → ∀ names, Way s base d names := fun s hs names =>
    ⟨(way s hs).1, (way s hs).2.1, fun first target _ _ => (way s hs).2.2 first target⟩
  refine { left := fun s t h => hway s h.2, right := ?_, same := ?_, make := ?_, write := ?_, log := ?_ }
  · rintro s t ⟨rfl, hs⟩
    exact hway s hs
  · rintro s t ⟨rfl, -⟩ rel -
    rfl
  · rintro s t rel c ⟨rfl, hs⟩ hok hc hd hn
    exact ⟨rfl, make s rel c hs hok hc hd hn⟩
  · rintro s t rel c data flag ⟨rfl, hs⟩ hok hc hd hflag
    exact ⟨rfl, write s rel c data flag hs hok hc hd hflag⟩
  · rintro s t record ⟨rfl, hs⟩
    exact ⟨rfl, log s record hs⟩

theorem writeMember_relates (h : Unpacks R base d ok) (hok : ∀ first, first ≠ [] → first <+: names → ok first)
    (hp : ∀ c ∈ names, IsName c) (hne : names ≠ []) (content : Content) :
    Relates R (writeMember archive (base.append names) content) (writeMember archive (base.append names) content)
      (fun _ => R) (Same fun _ => R) := by
  have hroom : Room R base d names.dropLast :=
    h.room (fun c hc => hp c (List.dropLast_subset _ hc)) fun first hfirst hinit =>
      hok first hfirst (hinit.trans (List.dropLast_prefix _))
  unfold writeMember
  rw [Path.parent_append base hne]
  refine (makeDirectory_relates hroom).bind fun _ => Relates.during_same ?_ _ _
  refine (h.writeFile_relates hp hok rfl _).bind fun _ => ?_
  split
  · exact Relates.throw fun _ _ hst => ⟨rfl, hst⟩
  · exact Relates.pure fun _ _ hst => hst

theorem extractMember_relates (h : Unpacks R base d ok) (hok : ∀ first, first ≠ [] → first <+: names → ok first)
    (hp : ∀ c ∈ names, IsName c) (hne : names ≠ []) (m : Member) :
    Relates R (extractMember archive (base.append names) m) (extractMember archive (base.append names) m)
      (fun _ => R) (Same fun _ => R) := by
  have hnote : ∀ text, Relates R (note .warning .archive text) (note .warning .archive text) (fun _ => R)
      (Same fun _ => R) := fun text => Relates.note h.log
  unfold extractMember
  dsimp only
  split
  · exact Relates.throw_bind fun _ _ hst => ⟨rfl, hst⟩
  split
  · exact makeDirectory_relates (h.room hp hok)
  · exact writeMember_relates h hok hp hne _
  · exact Relates.throw fun _ _ hst => ⟨rfl, hst⟩
  · exact hnote _
  · exact hnote _

/-- All that names and further names, none of them noise, lead to, and all on the way, is permitted. -/
def Receives (ok : List String → Prop) (names : List String) : Prop :=
  ∀ rest : List String, (∀ c ∈ rest, c ∉ noiseNames) → ∀ first, first ≠ [] → first <+: names ++ rest → ok first

theorem receives_of_opens (h : Opens ok names) : Receives ok names := fun rest _ first => h rest first

theorem extractListing_relates (h : Unpacks R base d ok) (hok : Receives ok names) (hp : ∀ c ∈ names, IsName c)
    (l : Listing) :
    Relates R (extractListing archive (base.append names) l) (extractListing archive (base.append names) l)
      (fun _ => R) (Same fun _ => R) := by
  unfold extractListing
  refine Relates.bind (Relates.forM fun m _ => ?_) fun _ => ?_
  · generalize hanswer : memberPath archive m.name = answer
    refine (Relates.query_const answer).bind fun path => ?_
    refine Relates.of_and fun hm => ?_
    split
    · exact Relates.pure fun _ _ hst => hst
    · rename_i path
      obtain ⟨hrelative, hne, hnamed⟩ := memberPath_named (hanswer.trans hm)
      have htarget : (base.append names).join path = base.append (names ++ path.parts) := by
        rw [Path.join_eq_append _ hrelative, Path.append_append]
      split
      · exact Relates.pure fun _ _ hst => hst
      · rename_i hnoise
        rw [htarget]
        refine extractMember_relates h (hok path.parts fun c hc hnc => hnoise ?_) ?_ (by simp [hne]) m
        · exact List.any_eq_true.2 ⟨c, hc, by simpa using hnc⟩
        intro c hc
        rcases List.mem_append.1 hc with hc | hc
        · exact hp c hc
        · exact hnamed c hc
  · split
    · exact Relates.throw fun _ _ hst => ⟨rfl, hst⟩
    · exact Relates.pure fun _ _ hst => hst

/-- Nothing is put in the place of a directory. -/
theorem Unpacks.keeping (h : Unpacks R base d ok) (x : Location) :
    Unpacks (fun s t => R s t ∧ s.files.get? x = some .directory) base d ok := by
  have hput : ∀ (s : Session) y node, y ≠ [] → s.files.get? y ≠ some .directory → s.files.get? x = some .directory →
      (s.files.put y node).get? x = some .directory := by
    intro s y node hne hy hx
    rw [Files.get?_put_of_ne hne, hx]
    rintro rfl
    exact hy hx
  refine { left := ?_, right := ?_, same := ?_, make := ?_, write := ?_, log := ?_ }
  · exact fun s t hst => h.left s t hst.1
  · exact fun s t hst => h.right s t hst.1
  · exact fun s t hst => h.same s t hst.1
  · intro s t rel c hst hok hc hd hn
    exact ⟨h.make s t rel c hst.1 hok hc hd hn, hput s _ _ (by simp) (by rw [hn]; exact nofun) hst.2⟩
  · intro s t rel c data flag hst hok hc hd hflag
    exact ⟨h.write s t rel c data flag hst.1 hok hc hd hflag, hput s _ _ (by simp) hflag.ne_directory hst.2⟩
  · exact fun s t record hst => ⟨h.log s t record hst.1, hst.2⟩

/-- An extraction of one archive into a region does the same in both sessions, and it makes the directory. -/
theorem extract_relates (archive : Path) (h : Unpacks R base d ok) (hok : Opens ok names) (hp : ∀ c ∈ names, IsName c)
    (hread : ∀ s t, R s t → s.content? archive.written = t.content? archive.written) :
    Relates R (extract archive (base.append names)) (extract archive (base.append names))
      (fun _ s t => R s t ∧ s.files.get? (d ++ names) = some .directory) (Same fun _ => R) := by
  have hmake := makeDirectories_relates (h.room hp fun first => hok.upTo)
  have hkept := h.keeping (d ++ names)
  unfold extract
  refine (Relates.during_same hmake _ _).bind fun _ => ?_
  refine Relates.mono (E := Same fun _ s t => R s t ∧ s.files.get? (d ++ names) = some .directory) ?_
    (fun _ _ hst => hst) (fun _ _ _ hst => hst) fun _ _ _ _ hst => ⟨hst.1, hst.2.1⟩
  refine ((Relates.query_same fun s t hst => hread s t hst.1).during_same _ _).bind fun data => ?_
  generalize read? data = answer
  refine (Relates.query_const answer).bind fun found => ?_
  refine Relates.of_and fun _ => ?_
  split
  · exact extractListing_relates hkept (receives_of_opens hok) hp _
  · exact Relates.throw fun _ _ hst => ⟨rfl, hst⟩

/-- An extraction into a region keeps what changes in the region keep, and it makes the directory. -/
theorem extract_ensures (archive : Path) (h : Unpacks (Alone P) base d ok) (hok : Opens ok names)
    (hp : ∀ c ∈ names, IsName c) : Ensures P (extract archive (base.append names))
      (fun _ s => P s ∧ s.files.get? (d ++ names) = some .directory) fun _ => P := by
  refine ensures_iff_relates.2 ((extract_relates archive h hok hp ?_).mono (fun _ _ hst => hst)
    (fun _ _ _ hst => ⟨hst.1.1, hst.1.2, hst.2⟩) fun _ _ _ _ hst => hst)
  rintro s t ⟨rfl, -⟩
  rfl

/-! ### Finding the project -/

/-- The project that is found is a directory of the region that is searched. -/
theorem findProject_ensures (archive : Path) {f : Files} {top : Location} (hd : f.get? top = some .directory)
    (hP : ∀ s, P s → Steady f top s) (hlog : ∀ s record, P s → P { s with log := s.log ++ [record] }) :
    Ensures P (findProject archive top.path) (fun root s => P s ∧ IsDirectoryIn f top root) fun _ => P := by
  let J : Option Path → Session → Prop := fun acc s => P s ∧ ∀ p, acc = some p → IsDirectoryIn f top p
  have htop : IsDirectoryIn f top top.path := ⟨[], by rw [List.append_nil], by rw [List.append_nil]; exact hd⟩
  have hsearch : Ensures P (findProject? top.path) J fun _ => P := by
    unfold findProject? findDirectory
    refine Ensures.bind (Looks.ensures (Looks.get.bind fun _ => Looks.pure _) fun _ _ hs => hs) fun steps => ?_
    refine (foldByDepth_ensures (J := J) (R := IsDirectoryIn f top) ?_ ?_ steps none [top.path] ?_).mono
      (fun s hs => ⟨hs, fun p hp => by cases hp⟩) (fun _ _ hs => hs) fun _ _ hs => hs
    · intro acc p hp
      refine Ensures.bind (Looks.ensures (Ecosystem.looks_isProjectRoot p) fun _ _ hs => hs.1) fun found => ?_
      cases found with
      | true => exact Ensures.pure fun s hs => ⟨hs.1, fun q hq => by cases hq; exact hp⟩
      | false => exact Ensures.pure fun s hs => ⟨hs.1, fun q hq => by cases hq⟩
    · intro acc p hp
      exact (hp.readableDirectoriesIn_ensures (fun s hs => hP s hs.1) fun s record hs => ⟨hlog s record hs.1, hs.2⟩).mono
        (fun _ hs => hs) (fun _ _ hs => hs) fun _ s (hs : J acc s) => hs.1
    · simpa using htop
  refine hsearch.bind fun found => ?_
  cases found with
  | none => exact Ensures.throw fun s hs => hs.1
  | some root => exact Ensures.pure fun s hs => ⟨hs.1, hs.2 root rfl⟩

end Handout.Archive
