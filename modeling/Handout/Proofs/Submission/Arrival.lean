import Handout.Proofs.Archive.Outcome
import Handout.Proofs.Submission.Receive
import Handout.Proofs.Submission.Selection

/-!
# A submission arrives

The archive of a project names what was submitted, and the received project holds what the members of this archive
leave (`receive_outcome`).  When no name has a backslash, members of different names go to different places.  So the
files of the received project are files that were submitted (`submitted_of_outcome`), and a submitted file that is not
noise is there (`outcome_of_submitted`).
-/

namespace Handout

open Handout.Action Session

variable {s t u : Session} {project : Path} {d : Location} {e : Ecosystem} {c : Config} {rel : List String}
  {data : Bytes} {executable : Bool}

namespace Archive

variable {archive : Path} {top : Option Path} {content : Handout.Content} {m : Member} {l : Listing} {es : List Entry}

/-- The place of a member is told by the names that lead to its entry. -/
theorem place?_entryBelow {format : Format} (hportable : ∀ c ∈ topNames top ++ rel, IsPortable c)
    (hname : m.name = (entryBelow format top content rel).name) :
    place? archive m =
      if topNames top ++ rel = [] ∨ (topNames top ++ rel).any noiseNames.contains then none else some (topNames top ++ rel) := by
  have hpath : memberPath archive m.name =
      .ok (if topNames top ++ rel = [] then none else some ⟨.relative, topNames top ++ rel⟩) :=
    hname ▸ memberPath_entryName rfl hportable archive format ((content rel).getD .directory)
  unfold place?
  rw [hpath]
  by_cases hnil : topNames top ++ rel = []
  · rw [if_pos hnil, if_pos (.inl hnil)]
  · rw [if_neg hnil]
    simp only [hnil, false_or]

private theorem exists_of_forall₂ {α β : Type} {R : α → β → Prop} {as : List α} {bs : List β} (h : List.Forall₂ R as bs)
    {a : α} (ha : a ∈ as) : ∃ b ∈ bs, R a b := by
  induction h with
  | nil => cases ha
  | cons hab _ ih =>
    rcases List.mem_cons.1 ha with rfl | ha
    · exact ⟨_, List.mem_cons_self .., hab⟩
    · obtain ⟨b, hb, hr⟩ := ih ha
      exact ⟨b, List.mem_cons_of_mem _ hb, hr⟩

/-- What is read back for an entry. -/
theorem ReadsBack.member (h : ReadsBack es l) {entry : Entry} (he : entry ∈ es) :
    ∃ m ∈ l.members, m.name = entry.name ∧ m.kind = .ofNode entry.node := by
  obtain ⟨m, hm, hname, hkind, -⟩ := exists_of_forall₂ h.2 he
  exact ⟨m, hm, hname, hkind⟩

/-- Every member was written as an entry. -/
theorem ReadsBack.entry (h : ReadsBack es l) (hm : m ∈ l.members) :
    ∃ entry ∈ es, m.name = entry.name ∧ m.kind = .ofNode entry.node := by
  obtain ⟨entry, he, hname, hkind, -⟩ := exists_of_forall₂ h.2.flip hm
  exact ⟨entry, he, hname, hkind⟩

end Archive

namespace Submission

variable {archive : Path} {l : Archive.Listing} {m : Archive.Member} {place : List String}

/-- No name that leads to something that is submitted has a backslash, and neither has the name of the project. -/
def NoBackslash (e : Ecosystem) (c : Config) (content : Content) (d : Location) : Prop :=
  ∀ rel, rel = [] ∨ IsSubmitted e c content rel → ∀ x ∈ d.getLast?.toList ++ rel, '\\' ∉ x.toList

/-- What leads to an entry is read back as it is written. -/
theorem portable_of_entry (hs : s.Listed project d) (hslash : NoBackslash e c (s.files.content d) d)
    (h : rel = [] ∨ IsSubmitted e c (s.files.content d) rel) :
    ∀ x ∈ d.getLast?.toList ++ rel, IsPortable x := by
  intro x hx
  have hproper : IsProper x := by
    rcases List.mem_append.1 hx with htop | hrel
    · rw [Option.mem_toList] at htop
      exact proper_of_exists hs.sound (by rw [hs.directory]; exact Option.some_ne_none _) (List.mem_of_getLast? htop)
    · rcases h with rfl | h
      · cases hrel
      · exact hs.sound.files.proper_of_mem (h.exists hs.sound.files) hrel
  exact ⟨hproper.toIsName, hslash rel h x hx⟩

/-- The place of a member tells what of the project it is. -/
theorem member_place (hs : s.Listed project d) (hslash : NoBackslash e c (s.files.content d) d)
    (hl : Archive.ReadsBack (submissionEntries project e c s.files d) l) (hm : m ∈ l.members)
    (hplace : Archive.place? archive m = some place) :
    ∃ rel, (rel = [] ∨ IsSubmitted e c (s.files.content d) rel) ∧ place = d.getLast?.toList ++ rel ∧
      m.kind = .ofNode ((s.files.content d rel).getD .directory) := by
  obtain ⟨entry, he, hname, hkind⟩ := hl.entry hm
  obtain ⟨rel, hrel, rfl⟩ := List.mem_map.1 he
  have hcases : rel = [] ∨ IsSubmitted e c (s.files.content d) rel :=
    (List.mem_cons.1 (Archive.mem_of_mem_withTop hrel)).imp_right (mem_submittedNames hs.sound).1
  have hportable : ∀ x ∈ Archive.topNames (topOf d) ++ rel, IsPortable x := by
    rw [topNames_topOf]
    exact portable_of_entry hs hslash hcases
  rw [Archive.place?_entryBelow hportable hname, topNames_topOf] at hplace
  split at hplace
  · cases hplace
  · exact ⟨rel, hcases, (Option.some.inj hplace).symm, hkind⟩

/-- A file that was received is one that was submitted. -/
theorem submitted_of_outcome (hs : s.Listed project d) (hslash : NoBackslash e c (s.files.content d) d)
    (hl : Archive.ReadsBack (submissionEntries project e c s.files d) l)
    (h : Archive.outcome archive Archive.bare l.members (d.getLast?.toList ++ rel) = some (.file data executable)) :
    executable = false ∧ IsSubmitted e c (s.files.content d) rel ∧
      ∃ flag, s.files.content d rel = some (.file data flag) := by
  rcases Archive.outcome_file h with hbare | ⟨hflag, m, hm, hplace, file, hfile, rfl⟩
  · exact absurd hbare (Archive.bare_ne_file _ _ _)
  obtain ⟨rel', hcases, hrel, hkind⟩ := member_place hs hslash hl hm hplace
  obtain rfl := List.append_cancel_left hrel
  rw [hfile] at hkind
  have hcontent : ∃ flag, s.files.content d rel = some (.file file.data flag) := by
    cases hnode : s.files.content d rel with
    | none =>
      rw [hnode] at hkind
      cases hkind
    | some node =>
      rw [hnode] at hkind
      cases node with
      | file data flag =>
        cases hkind
        exact ⟨flag, rfl⟩
      | _ => cases hkind
  refine ⟨hflag, hcases.resolve_left ?_, hcontent⟩
  rintro rfl
  obtain ⟨flag, hnode⟩ := hcontent
  unfold Files.content at hnode
  rw [List.append_nil, hs.directory] at hnode
  cases hnode

/-- A file that was submitted, and that is not noise, was received. -/
theorem outcome_of_submitted (hs : s.Listed project d) (hslash : NoBackslash e c (s.files.content d) d)
    (hl : Archive.ReadsBack (submissionEntries project e c s.files d) l) (h : IsSubmitted e c (s.files.content d) rel)
    (hfile : s.files.content d rel = some (.file data executable))
    (hquiet : ∀ x ∈ d.getLast?.toList ++ rel, x ∉ Archive.noiseNames) :
    Archive.outcome archive Archive.bare l.members (d.getLast?.toList ++ rel) = some (.file data false) := by
  have hisFile : ∀ m : Archive.Member, Archive.place? archive m = some (d.getLast?.toList ++ rel) →
      m.kind = .ofNode ((s.files.content d rel).getD .directory) →
      Archive.IsFileAt archive (d.getLast?.toList ++ rel) data m := by
    intro m hplace hkind
    rw [hfile] at hkind
    exact ⟨hplace, ⟨data, none⟩, hkind, rfl⟩
  refine Archive.outcome_of_same ?_ fun m hm hplace => ?_
  · obtain ⟨m, hm, hname, -⟩ := hl.member (List.mem_map_of_mem
      (Archive.mem_withTop_of_mem ((mem_submittedNames hs.sound).2 h)))
    have hportable : ∀ x ∈ Archive.topNames (topOf d) ++ rel, IsPortable x := by
      rw [topNames_topOf]
      exact portable_of_entry hs hslash (.inr h)
    refine ⟨m, hm, ?_⟩
    rw [Archive.place?_entryBelow hportable hname, topNames_topOf, if_neg]
    rintro (hnil | hnoise)
    · exact h.ne_nil (List.append_eq_nil_iff.1 hnil).2
    · obtain ⟨x, hx, hnoise⟩ := List.any_eq_true.1 hnoise
      exact hquiet x hx (List.contains_iff_mem.1 hnoise)
  · obtain ⟨rel', -, hrel, hkind⟩ := member_place hs hslash hl hm hplace
    obtain rfl := List.append_cancel_left hrel
    exact hisFile m hplace hkind

/-- The received project holds what the members of the archive leave, and it is recognized. -/
theorem receive_outcome {request : Request} {p : Path} {format : Archive.Format} (hs : s.Ready)
    (havoids : Avoids s request.submission s.scratch) (hdata : s.content? request.submission.written = .ok data)
    (hread : Archive.read? data = .ok (some (format, l)))
    (h : (receive request).perform s = (.ok (p, e), u)) :
    u.files.content (s.scratch ++ ["received"]) = Archive.outcome request.submission Archive.bare l.members ∧
      ((Ecosystem.find? p).perform u).1 = .ok (some e) := by
  unfold receive at h
  rw [perform_bind_ok (perform_note ..), perform_bind_ok (perform_get _), perform_bind_ok (perform_edit ..)] at h
  have hopened := hs.opened.log ⟨.info, .submissionPackaging, s!"preparing submission {request.submission.toString}"⟩
  generalize (⟨_, _, _⟩ : LogRecord) = record at h hopened
  obtain ⟨_, v, hextract, hrest⟩ := ok_of_perform_bind h
  have hbare : (s.files.put s.scratch .directory).content s.scratch = Archive.bare := by
    funext names
    unfold Files.content Archive.bare
    rw [Files.get?_put hs.scratch_ne_nil]
    by_cases hn : names = []
    · rw [if_pos (by rw [hn, List.append_nil]), if_pos hn]
    · rw [if_neg (by simpa using hn), if_neg hn]
      exact hs.get?_scratch (List.prefix_append _ _)
  obtain ⟨hwithin, hleads, hcontent⟩ := Archive.extract_outcome hopened.sound (leadsTo_path hopened.sound hopened.directory) hbare
    ⟨(by decide : IsProper "received").toIsName, by decide⟩
    (fun w hw => by
      rw [← (havoids.sameView hs (hopened.trans hw)).content?, hdata]) hread hextract
  have hreceived : Within s.opened v s.scratch := hopened.trans hwithin
  have hdir := hleads.directory hreceived.sound
  obtain ⟨root, w, hfind, hrest⟩ := ok_of_perform_bind hrest
  -- the search adds nothing but records to the log
  have hfound := (Archive.findProject_ensures request.submission hdir (P := fun t => t.Sound ∧ t.files = v.files)
    (fun t ht => ⟨ht.1, fun rel => by rw [ht.2], fun rel target => by
      rw [List.append_assoc]
      exact hreceived.noLink _ target⟩)
    fun t record ht => ⟨⟨ht.1.files, ht.1.workingDir⟩, ht.2⟩).ends ⟨hreceived.sound, rfl⟩ hfind
  obtain ⟨e', x, hget, hnote⟩ := ok_of_perform_bind hrest
  unfold Ecosystem.get at hget
  obtain ⟨answer, y, hanswer, hget⟩ := ok_of_perform_bind hget
  obtain rfl : y = w := by
    rw [← Ecosystem.looks_find? root w, hanswer]
  cases answer with
  | none => cases hget
  | some answer =>
    obtain ⟨he', rfl⟩ := Prod.mk.inj hget
    obtain rfl := Except.ok.inj he'
    rw [perform_bind_ok (perform_note ..)] at hnote
    generalize (⟨_, _, _⟩ : LogRecord) = record' at hnote
    obtain ⟨hresult, rfl⟩ := Prod.mk.inj hnote
    obtain ⟨rfl, rfl⟩ := Prod.mk.inj (Except.ok.inj hresult)
    obtain ⟨⟨hsound, hfiles⟩, -⟩ := hfound
    refine ⟨?_, ?_⟩
    · dsimp only
      rw [hfiles, hcontent]
    · generalize ht : { y with log := y.log ++ [record'] } = t
      have hview : SameView y t root := by
        subst ht
        exact ⟨fun _ _ _ => rfl, fun _ _ _ _ => rfl, rfl⟩
      rw [← (Ecosystem.agrees_find? hview hsound).same, hanswer]

end Submission

end Handout
