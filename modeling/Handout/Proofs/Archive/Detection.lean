import Handout.Proofs.Archive.RoundTrip

/-!
# Which format an archive is taken for

A zip archive is told by the record at its end, and this record is looked for first, in whatever data is given.  A tar
archive stores the content of files as it is; so what it carries decides whether it is recognized.  It never looks
compressed, for it begins with ASCII (`gunzip?_write`).  If no record is found in it, it is read as what it is
(`read?_write`), and the directory tree in it is extracted (`extract_tar`).  But a file that is itself a zip archive
brings such a record along, and then its contents are extracted instead (`sampleNested_lost`).
-/

namespace Handout.Archive

open Handout.Action Session

variable {s t u : Session} {p base archive output : Path} {d k : Location} {es : List Entry} {l : Listing}

/-! ### Tar archives do not look compressed -/

/-- Data of which the second byte is ASCII. -/
private def StartsPlain (b : Bytes) : Prop := ∃ x y r, b = x :: y :: r ∧ y.toNat < 128

private theorem StartsPlain.append {b : Bytes} (h : StartsPlain b) (r : Bytes) : StartsPlain (b ++ r) := by
  obtain ⟨x, y, rest, rfl, hy⟩ := h
  exact ⟨x, y, rest ++ r, rfl, hy⟩

private theorem StartsPlain.gunzip? {b : Bytes} (h : StartsPlain b) : gunzip? b = none := by
  obtain ⟨x, y, rest, rfl, hy⟩ := h
  have hmagic : ((x :: y :: rest).take 2 != Gzip.magic) = true := by
    have hne : y ≠ 0x8B := by
      rintro rfl
      exact absurd hy (by decide)
    simp [Gzip.magic, hne]
  unfold Archive.gunzip? Gzip.skipHeader
  rw [if_neg (by simp), if_pos hmagic]
  rfl

open Tar

private theorem startsPlain_writeText {size : Nat} (h : 2 ≤ size) (name : String) : StartsPlain (writeText size name) := by
  have hlength : 2 ≤ (writeText size name).length := by
    unfold writeText
    simp only [List.length_append, List.length_replicate]
    omega
  have hplain : ∀ c ∈ writeText size name, c.toNat < 128 := by
    intro c hc
    unfold writeText at hc
    rcases List.mem_append.1 hc with hc | hc
    · obtain ⟨x, -, rfl⟩ := List.mem_map.1 (List.mem_of_mem_take hc)
      split
      · rename_i hx
        rw [UInt8.toNat_ofNat', Nat.mod_eq_of_lt (by omega)]
        exact hx
      · decide
    · rw [(List.mem_replicate.1 hc).2]
      decide
  match hb : writeText size name with
  | [] => rw [hb] at hlength; simp at hlength
  | [_] => rw [hb] at hlength; simp at hlength
  | x :: y :: r => exact ⟨x, y, r, rfl, hplain y (by rw [hb]; simp)⟩

private theorem startsPlain_headerBlock (name : String) (mode size : Nat) (type : Char) (link : String) :
    StartsPlain (headerBlock name mode size type link) := by
  -- a block begins with the field of the name, and its checksum stands behind that
  have hfield : (writeText 100 name).length = 100 := by
    unfold writeText
    simp only [List.length_append, List.length_replicate, List.length_take]
    omega
  obtain ⟨rest, hrest⟩ : ∃ rest, uncheckedBlock name mode size type link = writeText 100 name ++ rest := by
    unfold uncheckedBlock pad
    simp only [List.append_assoc]
    exact ⟨_, rfl⟩
  unfold headerBlock
  simp only [hrest, List.append_assoc]
  rw [List.take_append, List.take_of_length_le (by omega), List.append_assoc]
  exact (startsPlain_writeText (by decide) name).append _

private theorem startsPlain_writeEntry (e : Entry) : StartsPlain (writeEntry e) := by
  have hextra : ∀ name link b, StartsPlain b → StartsPlain (extraBlocks name link ++ b) := by
    intro name link b hb
    unfold extraBlocks
    extract_lets records
    by_cases hrecords : records.isEmpty = true
    · rwa [if_pos hrecords]
    · rw [if_neg hrecords]
      exact ((startsPlain_headerBlock ..).append _).append _
  unfold writeEntry
  cases e.node with
  | directory => exact hextra _ _ _ (startsPlain_headerBlock ..)
  | file data executable =>
    dsimp only
    rw [List.append_assoc]
    exact hextra _ _ _ ((startsPlain_headerBlock ..).append _)
  | link target => exact hextra _ _ _ (startsPlain_headerBlock ..)

theorem gunzip?_write (es : List Entry) : gunzip? (Tar.write es) = none := by
  apply StartsPlain.gunzip?
  unfold Tar.write pad
  apply StartsPlain.append
  cases es with
  | nil => exact ⟨0, 0, List.replicate 1022 0, rfl, by decide⟩
  | cons e es =>
    rw [List.flatMap_cons, List.append_assoc]
    exact (startsPlain_writeEntry e).append _

/-! ### Tar archives without the record of a zip archive -/

private theorem Zip.lastIndex_of_not_infix {word b : Bytes} {found : Option Nat} {position : Nat} (h : ¬ word <:+: b) :
    Zip.lastIndex word found position b = found := by
  induction b generalizing position with
  | nil => rfl
  | cons x b ih =>
    rw [List.infix_cons_iff, not_or] at h
    have hfirst : word.isPrefixOf (x :: b) = false := by
      rw [Bool.eq_false_iff]
      exact fun hprefix => h.1 (List.isPrefixOf_iff_prefix.1 hprefix)
    rw [Zip.lastIndex, hfirst]
    exact ih h.2

/-- Where the signature does not occur, no record is found. -/
theorem Zip.findEnd_of_not_infix {data : Bytes} (h : ¬ Zip.endSignature <:+: data) : Zip.findEnd data = .error .absent := by
  have hslice : ∀ position n, Bytes.slice data position n ≠ Zip.endSignature := by
    intro position n hslice
    apply h
    rw [← hslice]
    exact ((List.take_prefix _ _).isInfix).trans (List.drop_suffix _ _).isInfix
  have hlast : ∀ start, Zip.lastIndex Zip.endSignature none start (data.drop start) = none := fun start =>
    Zip.lastIndex_of_not_infix fun hpart => h (hpart.trans (List.drop_suffix _ _).isInfix)
  have hposition : Zip.endPosition? data = none := by
    unfold Zip.endPosition?
    dsimp only
    split
    · rfl
    · rw [if_neg fun hend => hslice _ _ hend.1, hlast]
  rw [Zip.findEnd, hposition]

/-- A tar archive in which no record of a zip archive is found is read as a tar archive. -/
theorem read?_write (hend : Zip.findEnd (Tar.write es) = .error .absent) (hread : Tar.read ⟨Tar.write es, none⟩ = .ok l) :
    read? (Tar.write es) = .ok (some (.tar, l)) := by
  unfold read?
  rw [hend, gunzip?_write, readTar?, hread]
  rfl

/-- An archive is extracted as it is read, once the directory has been made. -/
theorem perform_extract_made {format : Format} {data : Bytes} (hmake : (makeDirectory base).perform s = (.ok (), t))
    (hdata : t.content? archive.written = .ok data) (hread : read? data = .ok (some (format, l))) :
    (extract archive base).perform s = (extractListing archive base l).perform t := by
  have hfile : (Action.during .read archive (Action.readFile archive)).perform t = (.ok data, t) := by
    unfold Action.readFile
    rw [perform_during, perform_query, hdata]
  unfold extract
  rw [perform_bind_ok hmake, perform_bind_ok hfile, perform_bind, perform_query, hread]

/-- A target that is there need not be made. -/
theorem perform_makeTarget (hs : s.Sound) (hleads : s.LeadsTo base k) :
    (makeDirectory base).perform s = (.ok (), s) := by
  unfold makeDirectory
  rw [perform_during, perform_makeDirectories_there hleads hs]

/-- An archive is extracted as it is read. -/
theorem perform_extract {format : Format} {data : Bytes} (hs : s.Sound) (hleads : s.LeadsTo base k)
    (hdata : s.content? archive.written = .ok data) (hread : read? data = .ok (some (format, l))) :
    (extract archive base).perform s = (extractListing archive base l).perform s :=
  perform_extract_made (perform_makeTarget hs hleads) hdata hread

/-- The tar archive of a directory tree, if no record of a zip archive is found in it, is extracted into an empty
directory as this tree. -/
theorem extract_tar (h : Archivable s p d none (output.addSuffix ".tmp"))
    (hend : Zip.findEnd (Tar.write (treeEntries .tar none s.files d)) = .error .absent)
    (hread : Tar.read ⟨Tar.write (treeEntries .tar none s.files d), none⟩ = .ok l)
    (hback : ReadsBack (treeEntries .tar none s.files d) l) :
    (∀ u, s.node? false (output.addSuffix ".tmp") = none → (create .tar p output none none).perform s = (.ok (), u) →
      ReplacedBy s output (Tar.write (treeEntries .tar none s.files d)) u.files) ∧
    ∀ t archive base k, t.content? archive.written = .ok (Tar.write (treeEntries .tar none s.files d)) → t.Sound →
      t.LeadsTo base k → (∀ names, names ≠ [] → t.files.get? (k ++ names) = none) →
      ∃ u, (extract archive base).perform t = (.ok (), u) ∧ (∀ x, ¬ k <+: x → u.files.get? x = t.files.get? x) ∧
        u.files.content k = fun names => (s.files.content d names).map extracted := by
  constructor
  · intro u hfree hu
    have hends := h.create_ensures .tar hfree s rfl
    rw [hu] at hends
    exact hends
  · intro t archive base k hdata ht hleads hempty
    obtain ⟨members, fault⟩ := l
    obtain rfl : fault = none := hback.1
    obtain ⟨u, hperform, hwithin, hcontent⟩ :=
      extractListing_rebuilds h.isTree ht hleads hempty (h.stands archive .tar hback) fun names hne hn => h.covers hne hn
    refine ⟨u, ?_, hwithin.outside, ?_⟩
    · rw [perform_extract ht hleads hdata (read?_write hend hread)]
      exact hperform
    · rw [hcontent]
      rfl

/-! ### Samples -/

/-- A session with a directory `p` that holds one file, and an empty directory `t`. -/
def sampleNested (name : String) (data : Bytes) : Session where
  files := ⟨[(["p"], .directory), (["p", name], .file data false), (["t"], .directory)]⟩
  workingDir := []
  scratch := ["s"]

/-- The smallest zip archive: one without entries. -/
def emptyZip : Bytes := Zip.write []

/-- The tar archive of a directory with an empty zip archive is taken for this zip archive, and nothing is extracted. -/
theorem sampleNested_lost :
    let s := sampleNested "a.zip" emptyZip
    let u := ((create .tar (.ofString "p") (.ofString "o") none none).perform s).2
    Zip.findEnd (Tar.write (treeEntries .tar none s.files ["p"])) ≠ .error .absent ∧
    ((create .tar (.ofString "p") (.ofString "o") none none).perform s).1 = .ok () ∧
    ((extract (.ofString "o") (.ofString "t")).perform u).1 = .ok () ∧
    s.files.content ["p"] ["a.zip"] = some (.file emptyZip false) ∧
    ((extract (.ofString "o") (.ofString "t")).perform u).2.files.content ["t"] ["a.zip"] = none := by
  decide +kernel

/-- A session in which an archive is stored. -/
def withArchive (s : Session) (data : Bytes) : Session := { s with files := s.files.put ["o"] (.file data false) }

/-- A file that begins as a zip archive does, but does not end as one, is archived and extracted. -/
theorem sampleNested_restored :
    let s := sampleNested "b.bin" [0x50, 0x4B, 3, 4]
    let t := withArchive s (Tar.write (treeEntries .tar none s.files ["p"]))
    ((create .tar (.ofString "p") (.ofString "o") none none).perform s).1 = .ok () ∧
    ReplacedBy s (.ofString "o") (Tar.write (treeEntries .tar none s.files ["p"]))
      ((create .tar (.ofString "p") (.ofString "o") none none).perform s).2.files ∧
    ∃ u, (extract (.ofString "o") (.ofString "t")).perform t = (.ok (), u) ∧
      u.files.content ["t"] = fun names => (s.files.content ["p"] names).map extracted := by
  intro s t
  have hlisted : s.Listed (.ofString "p") ["p"] := by
    refine ⟨⟨Files.wellFormed_of_entries (by decide +kernel), by decide +kernel⟩, ⟨by decide +kernel, fun follow => ?_⟩,
      by decide +kernel, fun rel target => Files.get?_ne_link (by decide +kernel) _ target, fun rel => List.not_mem_nil⟩
    cases follow <;> decide +kernel
  have harchivable : Archivable s (.ofString "p") ["p"] none ((Path.ofString "o").addSuffix ".tmp") :=
    archivable_of_listing hlisted (by decide +kernel) nofun nofun
  have hend : Zip.findEnd (Tar.write (treeEntries .tar none s.files ["p"])) = .error .absent :=
    Zip.findEnd_of_not_infix fun hsignature =>
      (by decide +kernel : (6 : UInt8) ∉ Tar.write (treeEntries .tar none s.files ["p"])) (hsignature.subset (by decide))
  have hread : Tar.read ⟨Tar.write (treeEntries .tar none s.files ["p"]), none⟩ =
      .ok ⟨[⟨"b.bin", .file (.ok ⟨[0x50, 0x4B, 3, 4], none⟩), false, false, none⟩], none⟩ := by decide +kernel
  obtain ⟨hcreate, hextract⟩ := extract_tar harchivable hend hread (by decide +kernel)
  have hok : ((create .tar (.ofString "p") (.ofString "o") none none).perform s).1 = .ok () := by decide +kernel
  have ht : t.Sound := ⟨Files.wellFormed_of_entries (by decide +kernel), by decide +kernel⟩
  have hempty : ∀ names, names ≠ [] → t.files.get? (["t"] ++ names) = none := by
    intro names hne
    by_contra hn
    have hmem := (Files.mem_listing ht.files).2 ⟨hne, hn⟩
    rw [show t.files.listing ["t"] = [] by decide +kernel] at hmem
    cases hmem
  have hdata : ∀ data, (withArchive s data).content? (Path.ofString "o").written = .ok data := fun _ => rfl
  obtain ⟨u, hperform, -, hcontent⟩ := hextract t (.ofString "o") (.ofString "t") ["t"] (hdata _) ht
    (leadsTo_iff_find.2 (by decide +kernel)) hempty
  have hfree : s.node? false ((Path.ofString "o").addSuffix ".tmp") = none := by decide +kernel
  have hsplit : ∀ x : Except Failure Unit × Session, x.1 = .ok () → x = (.ok (), x.2) := fun _ h => Prod.ext h rfl
  exact ⟨hok, hcreate _ hfree (hsplit _ hok), u, hperform, hcontent⟩

end Handout.Archive
