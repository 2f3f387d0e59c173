import Handout.Proofs.Archive.Atomic
import Handout.Proofs.Archive.EntryName
import Handout.Proofs.Archive.Rebuild

/-!
# Archives hold directory trees

The archive of a directory tree has an entry for everything in the tree, below the top-level directory if there is
one (`treeEntries`).  When the entries are read back, extracting them into an empty directory gives the tree again
(`extract_undoes_create`).
-/

namespace Handout

namespace Archive

open Handout.Action Session

variable {s t u : Session} {p base archive output : Path} {d k : Location} {top : Option Path} {format : Format}
  {content : Handout.Content} {rel names : List String} {l : Listing}

/-! ### What an archive holds -/

/-- The names of the top-level directory, if there is one. -/
def topNames (top : Option Path) : List String := top.elim [] Path.parts

/-- The entry for what is at some names below a directory. -/
def entryBelow (format : Format) (top : Option Path) (content : Handout.Content) (rel : List String) : Entry :=
  let node := (content rel).getD .directory
  ⟨entryName format ⟨.relative, topNames top ++ rel⟩ node, node⟩

/-- The entries for a directory, in the order of a traversal, after the one for the top-level directory. -/
def treeEntries (format : Format) (top : Option Path) (f : Files) (d : Location) : List Entry :=
  (withTop top (f.listing d)).map (entryBelow format top (f.content d))

/-- A name that an archive keeps: it is read back as one name, and it is extracted. -/
def IsKept (c : String) : Prop := '\\' ∉ c.toList ∧ c ∉ noiseNames

instance (c : String) : Decidable (IsKept c) := inferInstanceAs (Decidable (_ ∧ _))

/-- A directory tree whose archive keeps everything.  The names in it and those of the top-level directory are kept,
and the tree does not hold what has the name of the draft of the archive. -/
structure Archivable (s : Session) (p : Path) (d : Location) (top : Option Path) (draft : Path) : Prop
    extends s.Listed p d where
  kept : ∀ rel, s.files.get? (d ++ rel) ≠ none → ∀ c ∈ rel, IsKept c
  relative : ∀ name, top = some name → name.anchor = .relative
  topKept : ∀ c ∈ topNames top, IsProper c ∧ IsKept c
  apart : ∀ rel, s.files.get? (d ++ rel) ≠ none → areSameName s.workingDir (p.append rel) draft = false

theorem nameBelow_eq (h : ∀ name, top = some name → name.anchor = .relative) :
    nameBelow top rel = ⟨.relative, topNames top ++ rel⟩ := by
  cases top with
  | none => rfl
  | some name =>
    have hname := h name rfl
    obtain ⟨anchor, parts⟩ := name
    obtain rfl : anchor = .relative := hname
    rfl

theorem Archivable.portable (h : Archivable s p d top draft) (hn : s.files.get? (d ++ rel) ≠ none) :
    ∀ c ∈ topNames top ++ rel, IsProper c ∧ IsKept c := by
  intro c hc
  rcases List.mem_append.1 hc with hc | hc
  · exact h.topKept c hc
  · exact ⟨h.sound.files.proper_of_mem hn hc, h.kept rel hn c hc⟩

/-- Everything for which there is an entry is there. -/
theorem Archivable.exists (h : Archivable s p d top draft) (hrel : rel ∈ withTop top (s.files.listing d)) :
    s.files.get? (d ++ rel) ≠ none := by
  rcases List.mem_cons.1 (mem_of_mem_withTop hrel) with rfl | hmem
  · rw [List.append_nil, h.directory]
    exact Option.some_ne_none _
  · exact ((Files.mem_listing h.sound.files).1 hmem).2

/-- The entries for some paths in a directory are made of what the directory holds, as long as the paths reach it. -/
theorem perform_entriesOf (hf : u.files.WellFormed) {rels : List (List String)} {draft : Path}
    (hrels : ∀ rel ∈ [] :: rels, t.Reaches (p.append rel) (d ++ rel) ∧ t.files.get? (d ++ rel) = u.files.get? (d ++ rel) ∧
      u.files.get? (d ++ rel) ≠ none)
    (hrelative : ∀ name, top = some name → name.anchor = .relative) (htop : ∀ c ∈ topNames top, c ≠ "..")
    (hapart : format = .tar → ∀ rel ∈ withTop top rels, areSameName t.workingDir (p.append rel) draft = false) :
    (entries format draft p top (rels.map p.append)).perform t =
      (.ok ((withTop top rels).map (entryBelow format top (u.files.content d))), t) := by
  have hreaches : ∀ rel ∈ [] :: rels, t.Reaches (p.append rel) (d ++ rel) ∧ t.files.get? (d ++ rel) ≠ none := by
    intro rel hrel
    obtain ⟨hreaches, hsame, hn⟩ := hrels rel hrel
    exact ⟨hreaches, by rwa [hsame]⟩
  have hentry : ∀ rel ∈ withTop top rels, entriesAt format t.workingDir draft p top (t.files.content d) rel =
      .ok [entryBelow format top (u.files.content d) rel] := by
    intro rel hrel
    obtain ⟨-, hsame, hn⟩ := hrels rel (mem_of_mem_withTop hrel)
    obtain ⟨node, hnode⟩ := Option.ne_none_iff_exists'.1 hn
    have hplain : ∀ c ∈ topNames top ++ rel, c ≠ ".." := by
      intro c hc
      rcases List.mem_append.1 hc with hc | hc
      · exact htop c hc
      · exact (hf.proper_of_mem hn hc).plain.2
    have hentry : entryOf format ⟨.relative, topNames top ++ rel⟩ node = _ := entryOf_relative rfl hplain format node
    have hskip : ¬ (format = .tar ∧ areSameName t.workingDir (p.append rel) draft = true) := by
      rintro ⟨htar, hname⟩
      rw [hapart htar rel hrel] at hname
      cases hname
    unfold entriesAt entryBelow Files.content
    rw [if_neg hskip, hsame, hnode, nameBelow_eq hrelative]
    dsimp only
    rw [hentry]
    rfl
  rw [Archive.perform_entries draft hreaches, mapM_eq_ok hentry]
  exact congrArg (fun es => (Except.ok es, t)) (List.map_eq_flatMap ..).symm

/-- Where nothing that was there has changed, the entries for some paths in a directory are made of what it holds. -/
theorem perform_entriesBelow (h : s.Listed p d) {rels : List (List String)} {draft : Path}
    (hrels : ∀ rel ∈ rels, s.files.get? (d ++ rel) ≠ none) (hrelative : ∀ name, top = some name → name.anchor = .relative)
    (htop : ∀ c ∈ topNames top, c ≠ "..")
    (hapart : format = .tar → ∀ rel ∈ withTop top rels, areSameName s.workingDir (p.append rel) draft = false)
    (hw : t.workingDir = s.workingDir) (hkeep : ∀ x, s.files.get? x ≠ none → t.files.get? x = s.files.get? x) :
    (entries format draft p top (rels.map p.append)).perform t =
      (.ok ((withTop top rels).map (entryBelow format top (s.files.content d))), t) := by
  refine perform_entriesOf h.sound.files (fun rel hrel => ?_) hrelative htop fun htar _ hrel => by
    rw [hw, hapart htar _ hrel]
  obtain ⟨hreaches, hn⟩ := h.reaches_all hrels rel hrel
  exact ⟨hreaches.mono hw hkeep hn, hkeep _ hn, hn⟩

/-- Where nothing that was there has changed, the entries are those of the tree. -/
theorem Archivable.perform_entries (h : Archivable s p d top draft) (format : Format) (hw : t.workingDir = s.workingDir)
    (hkeep : ∀ x, s.files.get? x ≠ none → t.files.get? x = s.files.get? x) :
    (entries format draft p top ((s.files.listing d).map p.append)).perform t =
      (.ok (treeEntries format top s.files d), t) :=
  perform_entriesBelow h.toListed (fun _ hrel => ((Files.mem_listing h.sound.files).1 hrel).2) h.relative
    (fun c hc => (h.topKept c hc).1.plain.2) (fun _ rel hrel => h.apart rel (h.exists hrel)) hw hkeep

/-- The entries for everything below a directory. -/
theorem Archivable.perform_tree (h : Archivable s p d top draft) (format : Format) :
    (descendants p false true >>= entries format draft p top).perform s = (.ok (treeEntries format top s.files d), s) := by
  rw [perform_bind_ok (perform_descendants h.toListed)]
  exact h.perform_entries format rfl fun _ _ => rfl

/-! ### Archives that are written -/

theorem Archivable.log (h : Archivable s p d top draft) (record : LogRecord) :
    Archivable { s with log := s.log ++ [record] } p d top draft :=
  ⟨h.toListed.log record, h.kept, h.relative, h.topKept, h.apart⟩

/-- The entries of the tree are written by way of a draft. -/
private theorem Archivable.write_ensures {suffix : String} (h : Archivable s p d top (output.addSuffix suffix))
    (format : Format) (hfree : s.node? false (output.addSuffix suffix) = none) :
    Ensures (fun t => t = s)
      (overwriteAtomic output suffix fun draft => do
        let es ← entries format draft.path p top ((s.files.listing d).map p.append)
        writeFile draft (encode format es))
      (fun _ t => ReplacedBy s output (encode format (treeEntries format top s.files d)) t.files)
      fun _ t => t.files = s.files := by
  have hatomic := overwriteAtomic_ensures (f := encode format) (fun draft =>
    looks_entries format draft.path p top ((s.files.listing d).map p.append)) hfree fun loc u es hu hes => by
      have hkeep : ∀ x, s.files.get? x ≠ none → u.files.get? x = s.files.get? x := by
        intro x hx
        refine hu.wrote.others x ?_
        rintro rfl
        exact hx hu.free
      have hentries := h.perform_entries format hu.wrote.workingDir hkeep
      rw [show (output.addSuffix suffix).written.path = output.addSuffix suffix from rfl, hentries] at hes
      exact (Except.ok.inj hes).symm
  refine hatomic.mono (fun _ hu => hu) (fun _ u hu => ?_) fun _ u hu => congrArg Session.files hu
  obtain ⟨es, hes, hreplaced, -⟩ := hu
  exact hes ▸ hreplaced

/-- An archive that is created holds the entries of the tree. -/
theorem Archivable.create_ensures (h : Archivable s p d top (output.addSuffix ".tmp")) (format : Format)
    (hfree : s.node? false (output.addSuffix ".tmp") = none) :
    Ensures (fun t => t = s) (create format p output top none)
      (fun _ t => ReplacedBy s output (encode format (treeEntries format top s.files d)) t.files)
      fun _ t => t.files = s.files := by
  have hwritten : ∀ record, Ensures (fun t => t = { s with log := s.log ++ [record] }) _ _ _ := fun record =>
    have hsame := SameStore.note s s record (.refl s)
    (((h.log record).write_ensures format ((hsame.node? false _).trans hfree)).mono (fun _ hu => hu)
      (fun _ _ hu => hsame.replacedBy hu) fun _ _ hu => hu).during .writeArchive output
  intro t ht
  rw [ht]
  unfold create
  dsimp only
  rw [perform_bind_ok (perform_descendants h.toListed), perform_bind_ok (perform_note ..)]
  exact hwritten _ _ rfl

/-! ### Archives that are extracted -/

/-- A tree below some names. -/
def planted (place : List String) (content : Handout.Content) : Handout.Content := fun names =>
  if place <+: names then content (names.drop place.length)
  else if names <+: place then some .directory
  else none

theorem planted_append (place rel : List String) : planted place content (place ++ rel) = content rel := by
  unfold planted
  rw [if_pos (List.prefix_append _ _), List.drop_left]

/-- What there is of a planted tree is in the tree or on the way to its place. -/
theorem cases_of_planted {place : List String} (h : planted place content names ≠ none) :
    (∃ rel, names = place ++ rel ∧ content rel ≠ none) ∨ names <+: place := by
  unfold planted at h
  split at h
  · rename_i hplace
    obtain ⟨rel, rfl⟩ := hplace
    rw [List.drop_left] at h
    exact .inl ⟨rel, rfl, h⟩
  · split at h
    · rename_i hway
      exact .inr hway
    · exact absurd rfl h

/-- A tree below names that are extracted is a tree. -/
theorem IsTree.planted (h : IsTree content) {place : List String} (hplace : ∀ c ∈ place, IsProper c ∧ c ∉ noiseNames) :
    IsTree (Archive.planted place content) := by
  have hclean : ∀ {names name}, Archive.planted place content (names ++ [name]) ≠ none → IsProper name ∧ name ∉ noiseNames := by
    intro names name hn
    have hmem : name ∈ names ++ [name] := by simp
    rcases cases_of_planted hn with ⟨rel, hrel, hn⟩ | hway
    · rw [hrel] at hmem
      exact (List.mem_append.1 hmem).elim (hplace name) (h.clean hn name)
    · exact hplace name (hway.subset hmem)
  refine ⟨?_, ?_, fun hn => (hclean hn).1, fun hn => (hclean hn).2, ?_⟩
  · unfold Archive.planted
    split
    · rw [List.drop_nil, h.root]
    · rw [if_pos List.nil_prefix]
  · intro names name hn
    have hway : names ++ [name] <+: place → Archive.planted place content names = some .directory := by
      intro hway
      have hlength := hway.length_le
      rw [List.length_append, List.length_singleton] at hlength
      unfold Archive.planted
      rw [if_neg fun hplace => absurd hplace.length_le (by omega), if_pos ((List.prefix_append _ _).trans hway)]
    rcases cases_of_planted hn with ⟨rel, hrel, hn⟩ | hprefix
    · rcases List.eq_nil_or_concat' rel with rfl | ⟨init, c, rfl⟩
      · rw [List.append_nil] at hrel
        exact hway (hrel ▸ List.prefix_refl _)
      · rw [← List.append_assoc] at hrel
        rw [(List.append_inj' hrel rfl).1, planted_append]
        exact h.parent hn
    · exact hway hprefix
  · intro names target hlink
    unfold Archive.planted at hlink
    split at hlink
    · exact h.noLink _ target hlink
    · split at hlink <;> cases hlink

/-- What is archived is a tree, also below the names of the top-level directory. -/
theorem Archivable.isTree (h : Archivable s p d top draft) : IsTree (planted (topNames top) (s.files.content d)) := by
  have htree : IsTree (s.files.content d) := by
    refine ⟨?_, fun hn => ?_, fun hn => ?_, fun hn => ?_, h.noLink⟩
    · unfold Files.content
      rw [List.append_nil, h.directory]
    · unfold Files.content at hn ⊢
      rw [← List.append_assoc] at hn
      exact h.sound.files.parent hn
    · exact h.sound.files.proper_of_mem hn (by simp)
    · exact (h.kept _ hn _ (by simp)).2
  exact htree.planted fun c hc => ⟨(h.topKept c hc).1, (h.topKept c hc).2.2⟩

/-- Reading an archive gives back the entries that were written: their names, what they are and their data. -/
def ReadsBack (es : List Entry) (l : Listing) : Prop :=
  l.fault = none ∧
    List.Forall₂ (fun e m => m.name = e.name ∧ m.kind = .ofNode e.node ∧ m.encrypted = false) es l.members

/-- The names that lead to a member are those of its entry. -/
theorem Archivable.memberPath (h : Archivable s p d top draft) (archive : Path) (format : Format)
    (hrel : rel ∈ withTop top (s.files.listing d)) :
    Archive.memberPath archive (entryBelow format top (s.files.content d) rel).name =
      .ok (if topNames top ++ rel = [] then none else some ⟨.relative, topNames top ++ rel⟩) := by
  have hportable : ∀ c ∈ topNames top ++ rel, IsPortable c := fun c hc =>
    ⟨(h.portable (h.exists hrel) c hc).1.toIsName, (h.portable (h.exists hrel) c hc).2.1⟩
  unfold entryBelow
  dsimp only
  rw [memberPath_entryName rfl hportable]

/-- Members that are read for entries out of a directory stand for what is in a tree that holds this much of it. -/
theorem ReadsBack.stands (archive : Path) {tree : Handout.Content} {rels : List (List String)}
    (hl : ReadsBack (rels.map (entryBelow format top content)) l)
    (hpath : ∀ rel ∈ rels, Archive.memberPath archive (entryBelow format top content rel).name =
      .ok (if topNames top ++ rel = [] then none else some ⟨.relative, topNames top ++ rel⟩))
    (hrels : ∀ rel ∈ rels, content rel ≠ none ∧ tree rel = content rel) :
    List.Forall₂ (Stands archive (planted (topNames top) tree)) (rels.map fun rel => topNames top ++ rel) l.members := by
  have hback := hl.2
  rw [List.forall₂_map_left_iff] at hback ⊢
  refine ((List.forall₂_and_left _ _).2 ⟨fun rel hrel => hrel, hback⟩).imp ?_
  rintro rel m ⟨hrel, hname, hkind, hencrypted⟩
  obtain ⟨hn, hsame⟩ := hrels rel hrel
  obtain ⟨node, hnode⟩ := Option.ne_none_iff_exists'.1 hn
  refine ⟨?_, ⟨node, ?_, ?_⟩, hencrypted⟩
  · rw [hname]
    exact hpath rel hrel
  · rw [planted_append, hsame, hnode]
  · rw [hkind]
    unfold entryBelow
    rw [hnode]
    rfl

/-- The members that are read for the entries of a tree stand for what is in it. -/
theorem Archivable.stands (h : Archivable s p d top draft) (archive : Path) (format : Format)
    (hl : ReadsBack (treeEntries format top s.files d) l) :
    List.Forall₂ (Stands archive (planted (topNames top) (s.files.content d)))
      ((withTop top (s.files.listing d)).map fun rel => topNames top ++ rel) l.members :=
  hl.stands archive (fun _ hrel => h.memberPath archive format hrel) fun _ hrel => ⟨h.exists hrel, rfl⟩

/-- Everything in a tree is on the way to something for which there is an entry, if all in it is listed. -/
theorem covers_of_listed {rels : List (List String)} (hrels : ∀ rel, rel ≠ [] → content rel ≠ none → rel ∈ rels)
    (hne : names ≠ []) (h : planted (topNames top) content names ≠ none) :
    ∃ x ∈ (withTop top rels).map fun rel => topNames top ++ rel, names <+: x := by
  have htop : topNames top ≠ [] → [] ∈ withTop top rels := by
    intro hplace
    cases top with
    | none => exact absurd rfl hplace
    | some name => exact List.mem_cons_self ..
  have hmem : ∀ rel ∈ withTop top rels, names <+: topNames top ++ rel →
      ∃ x ∈ (withTop top rels).map fun rel => topNames top ++ rel, names <+: x :=
    fun rel hrel hprefix => ⟨_, List.mem_map.2 ⟨rel, hrel, rfl⟩, hprefix⟩
  rcases cases_of_planted h with ⟨rel, rfl, hn⟩ | hway
  · refine hmem rel ?_ (List.prefix_refl _)
    by_cases hrel : rel = []
    · subst hrel
      rw [List.append_nil] at hne
      exact htop hne
    · exact mem_withTop_of_mem (hrels rel hrel hn)
  · refine hmem [] (htop ?_) (by rwa [List.append_nil])
    rintro hplace
    rw [hplace, List.prefix_nil] at hway
    exact hne hway

/-- Everything in the tree is on the way to something for which there is an entry. -/
theorem Archivable.covers (h : Archivable s p d top draft) (hne : names ≠ [])
    (hn : planted (topNames top) (s.files.content d) names ≠ none) :
    ∃ x ∈ (withTop top (s.files.listing d)).map fun rel => topNames top ++ rel, names <+: x :=
  covers_of_listed (fun _ hrel hn => (Files.mem_listing h.sound.files).2 ⟨hrel, hn⟩) hne hn

/-- Extraction undoes the writing of an archive, in both formats.  The entries for a directory tree can be made, they
are the ones in an archive that is created, and they name the same paths in the same order in both formats.  What is
read back is extracted into an empty directory, which then holds the tree below the top-level directory. -/
theorem extract_undoes_create (h : Archivable s p d top (output.addSuffix ".tmp")) (archive : Path) :
    (∀ format, ((descendants p false true) >>= entries format (output.addSuffix ".tmp") p top).perform s =
      (.ok (treeEntries format top s.files d), s)) ∧
    (∀ format u, s.node? false (output.addSuffix ".tmp") = none → (create format p output top none).perform s = (.ok (), u) →
      ReplacedBy s output (encode format (treeEntries format top s.files d)) u.files) ∧
    (∀ format, (treeEntries format top s.files d).map (fun e => Archive.memberPath archive e.name) =
      (withTop top (s.files.listing d)).map fun rel =>
        .ok (if topNames top ++ rel = [] then none else some ⟨.relative, topNames top ++ rel⟩)) ∧
    ∀ format l t base k, ReadsBack (treeEntries format top s.files d) l → t.Sound → t.LeadsTo base k →
      (∀ names, names ≠ [] → t.files.get? (k ++ names) = none) →
      ∃ u, (extractListing archive base l).perform t = (.ok (), u) ∧ (∀ x, ¬ k <+: x → u.files.get? x = t.files.get? x) ∧
        u.files.content k = fun names => (planted (topNames top) (s.files.content d) names).map extracted := by
  refine ⟨fun format => ?_, fun format u hfree hu => ?_, fun format => ?_, fun format l t base k hl ht hleads hempty => ?_⟩
  · exact h.perform_tree format
  · have hcreate := h.create_ensures format hfree
    have hends := hcreate s rfl
    rw [hu] at hends
    exact hends
  · unfold treeEntries
    rw [List.map_map]
    refine List.map_congr_left fun rel hrel => ?_
    rw [Function.comp_apply, h.memberPath archive format hrel]
  · obtain ⟨u, hperform, hwithin, hcontent⟩ :=
      extractListing_rebuilds h.isTree ht hleads hempty (h.stands archive format hl) fun names hne hn => h.covers hne hn
    refine ⟨u, ?_, hwithin.outside, hcontent⟩
    obtain ⟨members, fault⟩ := l
    obtain rfl : fault = none := hl.1
    exact hperform

/-! ### Samples -/

deriving instance DecidableEq for MemberKind, Member, Listing

instance (es : List Entry) (l : Listing) : Decidable (ReadsBack es l) := inferInstanceAs (Decidable (_ ∧ _))

/-- What can be archived is told by what is listed. -/
theorem archivable_of_listing {draft : Path} (h : s.Listed p d)
    (hlisting : ∀ rel ∈ [] :: s.files.listing d,
      (∀ c ∈ rel, IsKept c) ∧ areSameName s.workingDir (p.append rel) draft = false)
    (hrelative : ∀ name, top = some name → name.anchor = .relative) (htop : ∀ c ∈ topNames top, IsProper c ∧ IsKept c) :
    Archivable s p d top draft := by
  have hmem : ∀ rel, s.files.get? (d ++ rel) ≠ none → rel ∈ [] :: s.files.listing d := by
    intro rel hn
    by_cases hrel : rel = []
    · rw [hrel]
      exact List.mem_cons_self ..
    · exact List.mem_cons_of_mem _ ((Files.mem_listing h.sound.files).2 ⟨hrel, hn⟩)
  exact ⟨h, fun rel hn => (hlisting rel (hmem rel hn)).1, hrelative, htop, fun rel hn => (hlisting rel (hmem rel hn)).2⟩

/-- A session with a directory `p`, in which there are an empty directory and a file, and an empty directory `t`. -/
def sampleFolder : Session where
  files := ⟨[(["p"], .directory), (["p", "a"], .directory), (["p", "b.tmp"], .file [1] true), (["t"], .directory)]⟩
  workingDir := []
  scratch := ["s"]

/-- What is read from an archive of the sample directory with the top-level directory `q/r`. -/
def sampleListing : Format → Listing
  | .zip => ⟨[⟨"q/r/", .directory, false, true, some 0⟩, ⟨"q/r/a/", .directory, false, true, some 0⟩,
      ⟨"q/r/b.tmp", .file (.ok ⟨[1], none⟩), false, true, some 8⟩], none⟩
  | .tar => ⟨[⟨"q/r", .directory, false, true, none⟩, ⟨"q/r/a", .directory, false, true, none⟩,
      ⟨"q/r/b.tmp", .file (.ok ⟨[1], none⟩), false, true, none⟩], none⟩

theorem sampleFolder_listed : sampleFolder.Listed (.ofString "p") ["p"] := by
  have hfiles : sampleFolder.files.WellFormed := Files.wellFormed_of_entries (by decide +kernel)
  refine ⟨⟨hfiles, by decide +kernel⟩, ⟨by decide +kernel, fun follow => ?_⟩, by decide +kernel,
    fun rel target => Files.get?_ne_link (by decide +kernel) _ target, fun rel => List.not_mem_nil⟩
  cases follow <;> decide +kernel

/-- In both formats the sample directory is written, read and extracted. -/
theorem sampleFolder_restored :
    let s := sampleFolder
    let top := some (Path.ofString "q/r")
    let output := Path.ofString "o"
    s.node? false (output.addSuffix ".tmp") = none ∧
    ∀ format, ((create format (.ofString "p") output top none).perform s).1 = .ok () ∧
      ReplacedBy s output (encode format (treeEntries format top s.files ["p"]))
        ((create format (.ofString "p") output top none).perform s).2.files ∧
      read? (encode format (treeEntries format top s.files ["p"])) = .ok (some (format, sampleListing format)) ∧
      ∃ u, (extractListing output (.ofString "t") (sampleListing format)).perform s = (.ok (), u) ∧
        u.files.content ["t"] = fun names => (planted ["q", "r"] (s.files.content ["p"]) names).map extracted := by
  intro s top output
  have hs := sampleFolder_listed.sound
  have hfree : s.node? false (output.addSuffix ".tmp") = none := by decide +kernel
  have harchivable : Archivable s (.ofString "p") ["p"] top (output.addSuffix ".tmp") :=
    archivable_of_listing sampleFolder_listed (by decide +kernel)
      (fun name hname => Option.some.inj hname ▸ (by decide +kernel : (Path.ofString "q/r").anchor = .relative))
      (by decide +kernel)
  obtain ⟨-, hcreate, -, hextract⟩ := extract_undoes_create harchivable output
  refine ⟨hfree, fun format => ?_⟩
  have hok : ((create format (.ofString "p") output top none).perform s).1 = .ok () := by
    cases format <;> decide +kernel
  have hread : read? (encode format (treeEntries format top s.files ["p"])) = .ok (some (format, sampleListing format)) := by
    cases format <;> decide +kernel
  have hback : ReadsBack (treeEntries format top s.files ["p"]) (sampleListing format) := by
    cases format <;> decide +kernel
  have hleads : s.LeadsTo (.ofString "t") ["t"] := leadsTo_iff_find.2 (by decide +kernel)
  have hempty : ∀ names, names ≠ [] → s.files.get? (["t"] ++ names) = none := by
    intro names hne
    by_contra hn
    have hlisted := (Files.mem_listing hs.files).2 ⟨hne, hn⟩
    rw [show s.files.listing ["t"] = [] by decide +kernel] at hlisted
    cases hlisted
  obtain ⟨u, hperform, -, hcontent⟩ := hextract format _ s _ _ hback hs hleads hempty
  exact ⟨hok, hcreate format _ hfree (Prod.ext hok rfl), hread, u, hperform, hcontent⟩

/-- The member that is read for an entry of which nothing is lost. -/
def Entry.member (e : Entry) : Member := { name := e.name, kind := .ofNode e.node }

theorem readsBack_member (es : List Entry) : ReadsBack es ⟨es.map Entry.member, none⟩ := by
  refine ⟨rfl, List.forall₂_map_right_iff.2 (List.forall₂_same.2 fun e _ => ⟨rfl, rfl, rfl⟩)⟩

/-- A name that is too long for a file: it has 256 bytes. -/
def longName : String := String.ofList (List.replicate 64 '😀')

/-- The entries of the sample directory below a top-level directory with a long name. -/
def longEntries (format : Format) : List Entry :=
  treeEntries format (some ⟨.relative, [longName]⟩) sampleFolder.files ["p"]

/-- When the first member cannot be extracted, the archive cannot. -/
theorem perform_extractListing_error (m : Member) (ms : List Member) {path : Path} {e : Failure}
    (hpath : memberPath archive m.name = .ok (some path)) (hquiet : path.parts.any noiseNames.contains = false)
    (h : (extractMember archive (base.join path) m).perform s = (.error e, t)) :
    (extractListing archive base ⟨m :: ms, none⟩).perform s = (.error e, t) := by
  unfold extractListing
  refine perform_bind_error (perform_bind_error ?_ _) _
  rw [perform_bind, perform_query, hpath]
  dsimp only
  rw [hquiet]
  exact h

/-- A top-level directory whose name is too long for a file is written but not extracted.  And in a tar archive nothing
is written for what has the name of the draft. -/
theorem sampleFolder_lost :
    (IsKept longName ∧ longName ≠ ".." ∧
      ∀ format, ((descendants (.ofString "p") false true >>=
          entries format (.ofString "o.tmp") (.ofString "p") (some ⟨.relative, [longName]⟩)).perform sampleFolder).1 =
            .ok (longEntries format) ∧
        ReadsBack (longEntries format) ⟨(longEntries format).map Entry.member, none⟩ ∧
        ((extractListing (.ofString "o") (.ofString "t") ⟨(longEntries format).map Entry.member, none⟩).perform
          sampleFolder).1 ≠ .ok ()) ∧
    sampleFolder.files.content ["p"] ["b.tmp"] ≠ none ∧
    ((descendants (.ofString "p") false true >>=
      entries .tar ((Path.ofString "p/b").addSuffix ".tmp") (.ofString "p") none).perform sampleFolder).1 =
      .ok [⟨"a", .directory⟩] := by
  have hchars : ∀ x ∈ longName.toList, x = '😀' := by
    intro x hx
    unfold longName at hx
    rw [String.toList_ofList] at hx
    exact (List.mem_replicate.1 hx).2
  have hportable : ∀ c ∈ [longName], IsPortable c := by
    intro c hc
    rw [List.mem_singleton.1 hc]
    exact ⟨⟨by decide +kernel, fun h => absurd (hchars _ h) (by decide)⟩, fun h => absurd (hchars _ h) (by decide)⟩
  refine ⟨⟨by decide +kernel, by decide +kernel, fun format => ⟨?_, readsBack_member _, ?_⟩⟩, by decide +kernel,
    by decide +kernel⟩
  · cases format <;> decide +kernel
  · have hpath : memberPath (.ofString "o") (entryName format ⟨.relative, [longName]⟩ .directory) =
        .ok (some ⟨.relative, [longName]⟩) := memberPath_entryName rfl hportable _ _ _
    have hfails : ((makeDirectory ((Path.ofString "t").join ⟨.relative, [longName]⟩)).perform sampleFolder).1 ≠ .ok () := by
      decide +kernel
    obtain ⟨rest, hrest⟩ : ∃ rest, longEntries format =
        ⟨entryName format ⟨.relative, [longName]⟩ .directory, .directory⟩ :: rest := ⟨_, rfl⟩
    have hquiet : [longName].any noiseNames.contains = false := by decide +kernel
    rw [hrest, List.map_cons]
    generalize (Path.ofString "t") = base at hfails ⊢
    rcases hrun : (makeDirectory (base.join ⟨.relative, [longName]⟩)).perform sampleFolder with ⟨_ | _, t⟩
    · have herror := perform_extractListing_error
        (Entry.member ⟨entryName format ⟨.relative, [longName]⟩ .directory, .directory⟩) (rest.map Entry.member) hpath
        hquiet hrun
      rw [herror]
      exact nofun
    · rw [hrun] at hfails
      exact absurd rfl hfails

end Archive

end Handout
